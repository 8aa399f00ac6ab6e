import QuantumLab.Plan.Execution
import QuantumLab.Proofs.Outcome

/-
  This file gives rules for reasoning about computations on
  kept values: what they keep true, what their results
  satisfy, what their faults can be, and when their results
  do not depend on the values kept.

  Key definitions include:
    * `Session.Meets`
    * `Session.Settles`
    * `Session.Tracks`

  Main statements:
    * `Session.Meets.bind` and `Session.Meets.mapM` say what
      sequences of computations meet.
    * `Session.Settles.bind` and `Session.Settles.mapM` say
      when sequences of computations do not depend on the
      values kept.
    * `Session.Tracks.bind` and `Session.Tracks.mapM` compare
      sequences of computations.
-/

namespace QuantumLab

variable {R α β : Type}

namespace Session

------------------------------------------------------------
-- Runs
------------------------------------------------------------

@[simp] theorem run_pure
    (a : α)
    (memo : Memo R) :
    (pure a : Session R α).run memo = (.ok a, memo) :=
  rfl

@[simp] theorem run_lift
    (result : Except (Fault R) α)
    (memo : Memo R) :
    (lift result : Session R α).run memo = (result, memo) :=
  rfl

@[simp] theorem run_fail
    (fault : Fault R)
    (memo : Memo R) :
    (fail fault : Session R α).run memo = (.error fault, memo) :=
  rfl

/- A sequence goes on from the values kept, if there is a first result. -/
theorem run_bind
    (x : Session R α)
    (f : α → Session R β)
    (memo : Memo R) :
    (x >>= f).run memo =
      match x.run memo with
      | (.ok a, later) => (f a).run later
      | (.error fault, later) => (.error fault, later) := by
  change (ExceptT.bind x f).run memo = _
  simp only [ExceptT.bind, ExceptT.run, ExceptT.mk, Bind.bind,
    StateT.bind]
  cases hRun : x memo with
  | mk result later =>
      cases result with
      | ok a => rfl
      | error fault => rfl

@[simp] theorem run_get
    (memo : Memo R) :
    (get : Session R (Memo R)).run memo = (.ok memo, memo) :=
  rfl

@[simp] theorem run_set
    (later memo : Memo R) :
    (set later : Session R PUnit).run memo = (.ok (), later) :=
  rfl

/- A list of computations begins with the first. -/
theorem run_forM_cons
    (f : α → Session R PUnit)
    (x : α)
    (xs : List α)
    (memo : Memo R) :
    ((x :: xs).forM f).run memo =
      (f x >>= fun _ => xs.forM f).run memo :=
  rfl

------------------------------------------------------------
-- Rules
------------------------------------------------------------

/-
  A computation keeps an invariant of the values kept, its
  result has a property, and its faults are of a kind.
-/
def Meets
    (I : Memo R → Prop)
    (P : α → Prop)
    (E : Fault R → Prop)
    (x : Session R α) : Prop :=
  ∀ memo, I memo →
    I (x.run memo).2 ∧ Ends P E (x.run memo).1

variable
  {I : Memo R → Prop}
  {P : α → Prop}
  {Q : β → Prop}
  {E : Fault R → Prop}

theorem Meets.pure
    {a : α}
    (hResult : P a) :
    Meets I P E (Pure.pure a : Session R α) :=
  fun _ hMemo => ⟨hMemo, hResult⟩

theorem Meets.lift
    {result : Except (Fault R) α}
    (hResult : Ends P E result) :
    Meets I P E (Session.lift result) :=
  fun _ hMemo => ⟨hMemo, hResult⟩

theorem Meets.fail
    {fault : Fault R}
    (hFault : E fault) :
    Meets I P E (Session.fail fault : Session R α) :=
  fun _ hMemo => ⟨hMemo, hFault⟩

/- Every computation meets conditions that ask for nothing. -/
theorem meets_trivial
    (x : Session R α) :
    Meets (fun _ => True) (fun _ => True) (fun _ => True) x := by
  intro memo _
  refine ⟨trivial, ?_⟩
  cases (x.run memo).1 with
  | ok _ => exact trivial
  | error _ => exact trivial

/- A sequence meets what its second part does on every first result. -/
theorem Meets.bind
    {x : Session R α}
    {f : α → Session R β}
    (hFirst : Meets I P E x)
    (hSecond : ∀ a, P a → Meets I Q E (f a)) :
    Meets I Q E (x >>= f) := by
  intro memo hMemo
  rw [run_bind]
  have hRun := hFirst memo hMemo
  rcases hResult : x.run memo with ⟨result, later⟩
  rw [hResult] at hRun
  cases result with
  | ok a => exact hSecond a hRun.2 later hRun.1
  | error fault => exact hRun

theorem Meets.weaken
    {P' : α → Prop}
    {E' : Fault R → Prop}
    {x : Session R α}
    (hMeets : Meets I P E x)
    (hResult : ∀ a, P a → P' a)
    (hFault : ∀ fault, E fault → E' fault) :
    Meets I P' E' x := by
  intro memo hMemo
  have hRun := hMeets memo hMemo
  refine ⟨hRun.1, ?_⟩
  revert hRun
  cases (x.run memo).1 with
  | ok a =>
      intro hRun
      exact hResult a hRun.2
  | error fault =>
      intro hRun
      exact hFault fault hRun.2

/- What one computation meets for each member, a list of them does. -/
theorem Meets.mapM
    {S : α → β → Prop}
    {f : α → Session R β}
    {xs : List α}
    (hEach : ∀ x ∈ xs, Meets I (S x) E (f x)) :
    Meets I (fun ys => List.Forall₂ S xs ys) E (xs.mapM f) := by
  induction xs with
  | nil => exact Meets.pure .nil
  | cons x xs ih =>
      rw [List.mapM_cons]
      have hTail := ih fun y hMember =>
        hEach y (List.mem_cons_of_mem x hMember)
      refine (hEach x List.mem_cons_self).bind fun y hHead => ?_
      refine hTail.bind fun ys hRest => ?_
      exact Meets.pure (.cons hHead hRest)

/- A list of computations of which nothing is asked but their faults. -/
theorem Meets.mapM_trivial
    {f : α → Session R β}
    {xs : List α}
    (hEach : ∀ x ∈ xs, Meets I (fun _ => True) E (f x)) :
    Meets I (fun _ => True) E (xs.mapM f) := by
  have hList : Meets I
      (fun ys => List.Forall₂ (fun _ _ => True) xs ys) E (xs.mapM f) :=
    Meets.mapM hEach
  exact hList.weaken (fun _ _ => trivial) fun _ hFault => hFault

------------------------------------------------------------
-- Results that do not depend on the values kept
------------------------------------------------------------

/-
  A computation keeps an invariant of the values kept and
  ends with the same result, or the same fault, from all
  values that satisfy it.
-/
def Settles
    (I : Memo R → Prop)
    (x : Session R α) : Prop :=
  ∃ result, ∀ memo, I memo →
    I (x.run memo).2 ∧ (x.run memo).1 = result

theorem Settles.keeps
    {x : Session R α}
    {memo : Memo R}
    (hSettles : Settles I x)
    (hMemo : I memo) :
    I (x.run memo).2 := by
  rcases hSettles with ⟨result, hEach⟩
  exact (hEach memo hMemo).1

theorem Settles.result_eq
    {x : Session R α}
    {memo memo' : Memo R}
    (hSettles : Settles I x)
    (hMemo : I memo)
    (hMemo' : I memo') :
    (x.run memo).1 = (x.run memo').1 := by
  rcases hSettles with ⟨result, hEach⟩
  rw [(hEach memo hMemo).2, (hEach memo' hMemo').2]

theorem Settles.lift
    (result : Except (Fault R) α) :
    Settles I (Session.lift result) :=
  ⟨result, fun _ hMemo => ⟨hMemo, rfl⟩⟩

theorem Settles.pure
    (a : α) :
    Settles I (Pure.pure a : Session R α) :=
  Settles.lift (.ok a)

theorem Settles.fail
    (fault : Fault R) :
    Settles I (Session.fail fault : Session R α) :=
  Settles.lift (.error fault)

/- A sequence goes on from one first result. -/
theorem Settles.bind
    {x : Session R α}
    {f : α → Session R β}
    (hFirst : Settles I x)
    (hSecond : ∀ a, Settles I (f a)) :
    Settles I (x >>= f) := by
  rcases hFirst with ⟨first, hFirst⟩
  cases first with
  | error fault =>
      refine ⟨.error fault, fun memo hMemo => ?_⟩
      rcases hFirst memo hMemo with ⟨hKept, hResult⟩
      rcases hRun : x.run memo with ⟨result, later⟩
      rw [hRun] at hKept hResult
      cases hResult
      rw [run_bind, hRun]
      exact ⟨hKept, rfl⟩
  | ok a =>
      rcases hSecond a with ⟨second, hSecond⟩
      refine ⟨second, fun memo hMemo => ?_⟩
      rcases hFirst memo hMemo with ⟨hKept, hResult⟩
      rcases hRun : x.run memo with ⟨result, later⟩
      rw [hRun] at hKept hResult
      cases hResult
      rw [run_bind, hRun]
      exact hSecond later hKept

theorem Settles.mapM
    {f : α → Session R β}
    (hEach : ∀ x, Settles I (f x))
    (xs : List α) :
    Settles I (xs.mapM f) := by
  induction xs with
  | nil => exact Settles.pure []
  | cons x xs ih =>
      rw [List.mapM_cons]
      refine (hEach x).bind fun y => ?_
      exact ih.bind fun ys => Settles.pure (y :: ys)

------------------------------------------------------------
-- Two computations
------------------------------------------------------------

/-
  Whenever a computation succeeds, so does another one, with
  a related result.  Both keep an invariant of their own.
-/
def Tracks
    (I I' : Memo R → Prop)
    (P : α → β → Prop)
    (x : Session R α)
    (y : Session R β) : Prop :=
  ∀ memo memo' a later, I memo → I' memo' →
    x.run memo = (.ok a, later) →
      ∃ b later', y.run memo' = (.ok b, later') ∧
        I later ∧ I' later' ∧ P a b

section Tracks

variable
  {γ δ : Type}
  {I I' : Memo R → Prop}
  {P : α → β → Prop}
  {Q : γ → δ → Prop}

theorem Tracks.lift
    {x : Except (Fault R) α}
    {y : Except (Fault R) β}
    (hTracks : QuantumLab.Tracks P x y) :
    Tracks I I' P (Session.lift x) (Session.lift y) := by
  intro memo memo' a later hMemo hMemo' hRun
  have hResult : x = .ok a := congrArg Prod.fst hRun
  have hLater : memo = later := congrArg Prod.snd hRun
  rcases hTracks a hResult with ⟨b, hResult', hRelated⟩
  subst hLater hResult'
  exact ⟨b, memo', rfl, hMemo, hMemo', hRelated⟩

theorem Tracks.pure
    {a : α}
    {b : β}
    (hRelated : P a b) :
    Tracks I I' P (Pure.pure a : Session R α)
      (Pure.pure b : Session R β) :=
  Tracks.lift (.of_ok hRelated)

/- Whatever fails is tracked by anything. -/
theorem Tracks.fail
    {fault : Fault R}
    {y : Session R β} :
    Tracks I I' P (Session.fail fault : Session R α) y := by
  intro memo memo' a later _ _ hRun
  cases hRun

theorem Tracks.bind
    {x : Session R α}
    {y : Session R β}
    {f : α → Session R γ}
    {g : β → Session R δ}
    (hFirst : Tracks I I' P x y)
    (hSecond : ∀ a b, P a b → Tracks I I' Q (f a) (g b)) :
    Tracks I I' Q (x >>= f) (y >>= g) := by
  intro memo memo' c last hMemo hMemo' hRun
  rw [run_bind] at hRun
  rcases hResult : x.run memo with ⟨result, later⟩
  rw [hResult] at hRun
  cases result with
  | error fault => cases hRun
  | ok a =>
      rcases hFirst memo memo' a later hMemo hMemo' hResult with
        ⟨b, later', hResult', hLater, hLater', hRelated⟩
      rw [run_bind, hResult']
      exact hSecond a b hRelated later later' c last hLater hLater' hRun

/- What holds of each pair of members holds of a list of them. -/
theorem Tracks.mapM
    {f : α → Session R γ}
    {g : β → Session R δ}
    {xs : List α}
    {ys : List β}
    (hPairs : List.Forall₂ P xs ys)
    (hEach : ∀ a b, P a b → Tracks I I' Q (f a) (g b)) :
    Tracks I I' (List.Forall₂ Q) (xs.mapM f) (ys.mapM g) := by
  induction hPairs with
  | nil => exact .pure .nil
  | @cons a b xs ys hHead _ ih =>
      rw [List.mapM_cons, List.mapM_cons]
      refine (hEach a b hHead).bind fun c d hFirst => ?_
      refine ih.bind fun cs ds hRest => ?_
      exact .pure (.cons hFirst hRest)

/- The same results for each pair make the same list. -/
theorem Tracks.mapM_eq
    {f : α → Session R γ}
    {g : β → Session R γ}
    {xs : List α}
    {ys : List β}
    (hPairs : List.Forall₂ P xs ys)
    (hEach : ∀ a b, P a b → Tracks I I' (· = ·) (f a) (g b)) :
    Tracks I I' (· = ·) (xs.mapM f) (ys.mapM g) := by
  have hLists := Tracks.mapM hPairs hEach
  rw [List.forall₂_eq_eq_eq] at hLists
  exact hLists

end Tracks

end Session

end QuantumLab
