import QuantumLab.Fault
import Mathlib.Data.List.Forall2

/-
  This file peels computations that may end in a fault into
  their steps.

  Key definitions include:
    * `Ends`, `Fails`
    * `Tracks`, `Alike`

  Main statements:
    * `bind_eq_ok_iff` and `bind_eq_error_iff` say how a
      sequence of two computations ends.
    * `map_eq_ok_iff` says when a computation succeeds whose
      result is changed.
    * `mapM_eq_ok_iff` and `forM_eq_ok_iff` say when a
      computation succeeds for every member of a list.
    * `forM_eq_error_iff` says at which member a check fails.
    * `Tracks.bind` and `Tracks.foldlM` compare sequences of
      computations step by step.
-/

namespace QuantumLab

variable {ε α β : Type}

------------------------------------------------------------
-- Sequences
------------------------------------------------------------

@[simp] theorem ok_bind
    (a : α)
    (f : α → Except ε β) :
    ((Except.ok a : Except ε α) >>= f) = f a :=
  rfl

@[simp] theorem error_bind
    (e : ε)
    (f : α → Except ε β) :
    ((Except.error e : Except ε α) >>= f) = .error e :=
  rfl

theorem bind_eq_ok_iff
    {x : Except ε α}
    {f : α → Except ε β}
    {b : β} :
    (x >>= f) = .ok b ↔ ∃ a, x = .ok a ∧ f a = .ok b := by
  cases x with
  | error e => simp [bind, Except.bind]
  | ok a => simp [bind, Except.bind]

/- A check that comes first has to pass. -/
theorem unit_bind_eq_ok_iff
    {x : Except ε Unit}
    {f : Unit → Except ε β}
    {b : β} :
    (x >>= f) = .ok b ↔ x = .ok () ∧ f () = .ok b := by
  rw [bind_eq_ok_iff]
  constructor
  · rintro ⟨_, hCheck, hRest⟩
    exact ⟨hCheck, hRest⟩
  · rintro ⟨hCheck, hRest⟩
    exact ⟨(), hCheck, hRest⟩

theorem bind_eq_error_iff
    {x : Except ε α}
    {f : α → Except ε β}
    {e : ε} :
    (x >>= f) = .error e ↔
      x = .error e ∨ ∃ a, x = .ok a ∧ f a = .error e := by
  cases x with
  | error e => simp [bind, Except.bind]
  | ok a => simp [bind, Except.bind]

theorem map_eq_ok_iff
    {x : Except ε α}
    {f : α → β}
    {b : β} :
    f <$> x = .ok b ↔ ∃ a, x = .ok a ∧ f a = b := by
  cases x with
  | error e => simp [Functor.map, Except.map]
  | ok a => simp [Functor.map, Except.map]

/- A sequence that succeeds has a first result. -/
theorem exists_of_bind_ok
    {x : Except ε α}
    {f : α → Except ε β}
    {b : β}
    (hSequence : (x >>= f) = .ok b) :
    ∃ a, x = .ok a := by
  rcases bind_eq_ok_iff.1 hSequence with ⟨a, hFirst, _⟩
  exact ⟨a, hFirst⟩

/- A sequence that succeeds has a first and a second result. -/
theorem exists_of_bind_bind_ok
    {γ : Type}
    {x : Except ε α}
    {y : Except ε γ}
    {f : α → γ → Except ε β}
    {b : β}
    (hSequence : (x >>= fun a => y >>= f a) = .ok b) :
    (∃ a, x = .ok a) ∧ ∃ c, y = .ok c := by
  rcases bind_eq_ok_iff.1 hSequence with ⟨a, hFirst, hRest⟩
  exact ⟨⟨a, hFirst⟩, exists_of_bind_ok hRest⟩

@[simp] theorem pure_eq_ok_iff
    {a b : α} :
    (pure a : Except ε α) = .ok b ↔ a = b := by
  simp [pure, Except.pure]

@[simp] theorem pure_ne_error
    {a : α}
    {e : ε} :
    (pure a : Except ε α) ≠ .error e := by
  simp [pure, Except.pure]

------------------------------------------------------------
-- Ends of computations
------------------------------------------------------------

/- A result has a property, or a fault is of a kind. -/
def Ends
    (P : α → Prop)
    (E : ε → Prop)
    (x : Except ε α) : Prop :=
  match x with
  | .ok a => P a
  | .error e => E e

section Ends

variable
  {P : α → Prop}
  {Q : β → Prop}
  {E : ε → Prop}
  {x : Except ε α}

theorem Ends.bind
    {f : α → Except ε β}
    (hFirst : Ends P E x)
    (hSecond : ∀ a, P a → Ends Q E (f a)) :
    Ends Q E (x >>= f) := by
  cases x with
  | ok a => exact hSecond a hFirst
  | error e => exact hFirst

theorem Ends.map
    {f : α → β}
    (hFirst : Ends P E x)
    (hResult : ∀ a, P a → Q (f a)) :
    Ends Q E (f <$> x) := by
  cases x with
  | ok a => exact hResult a hFirst
  | error e => exact hFirst

theorem Ends.of_ok
    {a : α}
    (hResult : x = .ok a)
    (hProperty : P a) :
    Ends P E x := by
  rw [hResult]
  exact hProperty

/- A computation ends with a result or with a fault. -/
theorem Ends.cases
    (hEnds : Ends P E x) :
    (∃ a, x = .ok a ∧ P a) ∨ ∃ e, x = .error e ∧ E e := by
  cases x with
  | ok a => exact .inl ⟨a, rfl, hEnds⟩
  | error e => exact .inr ⟨e, rfl, hEnds⟩

/- What holds of every result may be said of the result. -/
theorem Ends.of_result
    {Q : α → Prop}
    (hEnds : Ends P E x)
    (hResult : ∀ a, x = .ok a → Q a) :
    Ends Q E x := by
  cases x with
  | ok a => exact hResult a rfl
  | error e => exact hEnds

theorem Ends.imp_error
    {F : ε → Prop}
    (hEnds : Ends P E x)
    (hFault : ∀ e, E e → F e) :
    Ends P F x := by
  cases x with
  | ok a => exact hEnds
  | error e => exact hFault e hEnds

/- A fault may be reworded. -/
theorem Ends.mapError
    {ε' : Type}
    {F : ε' → Prop}
    {f : ε → ε'}
    (hEnds : Ends P E x)
    (hFault : ∀ e, E e → F (f e)) :
    Ends P F (x.mapError f) := by
  cases x with
  | ok a => exact hEnds
  | error e => exact hFault e hEnds

end Ends

------------------------------------------------------------
-- Faults alone
------------------------------------------------------------

/- A computation whose fault, if it ends with one, is of a kind. -/
abbrev Fails (E : ε → Prop) (x : Except ε α) : Prop :=
  Ends (fun _ => True) E x

section Fails

variable
  {E : ε → Prop}
  {x : Except ε α}

theorem Fails.of_ok
    (hResult : ∃ a, x = .ok a) :
    Fails E x := by
  rcases hResult with ⟨a, rfl⟩
  exact trivial

theorem Fails.of_error
    {e : ε}
    (hFails : Fails E x)
    (hFault : x = .error e) :
    E e := by
  rw [hFault] at hFails
  exact hFails

theorem Fails.ite
    {test : Prop}
    [Decidable test]
    {y : Except ε α}
    (hThen : Fails E x)
    (hElse : Fails E y) :
    Fails E (if test then x else y) := by
  split
  · exact hThen
  · exact hElse

theorem Fails.bind
    {f : α → Except ε β}
    (hFirst : Fails E x)
    (hSecond : ∀ a, Fails E (f a)) :
    Fails E (x >>= f) :=
  Ends.bind hFirst fun a _ => hSecond a

/- The second computation only comes after a result of the first. -/
theorem Fails.bind_of_ok
    {f : α → Except ε β}
    (hFirst : Fails E x)
    (hSecond : ∀ a, x = .ok a → Fails E (f a)) :
    Fails E (x >>= f) := by
  have hResult : Ends (fun a => x = .ok a) E x :=
    hFirst.of_result fun a hResult => hResult
  exact hResult.bind hSecond

theorem Fails.map
    {f : α → β}
    (hFirst : Fails E x) :
    Fails E (f <$> x) :=
  Ends.map hFirst fun _ _ => trivial

theorem Fails.mapM
    {f : α → Except ε β}
    {xs : List α}
    (hEach : ∀ x ∈ xs, Fails E (f x)) :
    Fails E (xs.mapM f) := by
  induction xs with
  | nil => exact trivial
  | cons x xs ih =>
      rcases List.forall_mem_cons.1 hEach with ⟨hHead, hTail⟩
      rw [List.mapM_cons]
      exact hHead.bind fun y => (ih hTail).bind fun ys => trivial

theorem Fails.forM
    {f : α → Except ε Unit}
    {xs : List α}
    (hEach : ∀ x, Fails E (f x)) :
    Fails E (xs.forM f) := by
  induction xs with
  | nil => exact trivial
  | cons x xs ih => exact (hEach x).bind fun _ => ih

end Fails

------------------------------------------------------------
-- Results alone
------------------------------------------------------------

theorem toOption_eq_some_iff
    {x : Except ε α}
    {a : α} :
    x.toOption = some a ↔ x = .ok a := by
  cases x with
  | error e => simp [Except.toOption]
  | ok b => simp [Except.toOption]

@[simp] theorem toOption_ok
    (a : α) :
    (Except.ok a : Except ε α).toOption = some a :=
  rfl

@[simp] theorem toOption_error
    (e : ε) :
    (Except.error e : Except ε α).toOption = none :=
  rfl

@[simp] theorem toOption_pure
    (a : α) :
    (pure a : Except ε α).toOption = some a :=
  rfl

@[simp] theorem toOption_bind
    (x : Except ε α)
    (f : α → Except ε β) :
    (x >>= f).toOption = x.toOption.bind fun a => (f a).toOption := by
  cases x with
  | error e => rfl
  | ok a => rfl

@[simp] theorem toOption_map
    (x : Except ε α)
    (f : α → β) :
    (f <$> x).toOption = x.toOption.map f := by
  cases x with
  | error e => rfl
  | ok a => rfl

------------------------------------------------------------
-- Two computations
------------------------------------------------------------

/-
  Whenever a computation succeeds, so does another one, with
  a related result.
-/
def Tracks
    (P : α → β → Prop)
    (x : Except ε α)
    (y : Except ε β) : Prop :=
  ∀ a, x = .ok a → ∃ b, y = .ok b ∧ P a b

section Tracks

variable
  {γ δ : Type}
  {P : α → β → Prop}
  {Q : γ → δ → Prop}
  {x : Except ε α}
  {y : Except ε β}

theorem Tracks.of_ok
    {a : α}
    {b : β}
    (hRelated : P a b) :
    Tracks P (.ok a : Except ε α) (.ok b) := by
  rintro _ ⟨⟩
  exact ⟨b, rfl, hRelated⟩

/- Whatever fails is tracked by anything. -/
theorem Tracks.of_error
    {e : ε} :
    Tracks P (.error e) y :=
  nofun

theorem Tracks.of_eq
    {x' : Except ε α}
    (hSame : x' = x) :
    Tracks (· = ·) x x' :=
  fun a hResult => ⟨a, hSame.trans hResult, rfl⟩

theorem Tracks.bind
    {f : α → Except ε γ}
    {g : β → Except ε δ}
    (hFirst : Tracks P x y)
    (hSecond : ∀ a b, P a b → Tracks Q (f a) (g b)) :
    Tracks Q (x >>= f) (y >>= g) := by
  intro c hSequence
  rcases bind_eq_ok_iff.1 hSequence with ⟨a, hResult, hRest⟩
  rcases hFirst a hResult with ⟨b, hResult', hRelated⟩
  rw [hResult']
  exact hSecond a b hRelated c hRest

/- The same computation may come first in both. -/
theorem Tracks.bind_same
    {z z' : Except ε α}
    {f : α → Except ε γ}
    {g : α → Except ε δ}
    (hFirst : z' = z)
    (hSecond : ∀ a, z = .ok a → Tracks Q (f a) (g a)) :
    Tracks Q (z >>= f) (z' >>= g) := by
  intro c hSequence
  rcases bind_eq_ok_iff.1 hSequence with ⟨a, hResult, hRest⟩
  rw [hFirst, hResult]
  exact hSecond a hResult c hRest

theorem Tracks.imp
    {P' : α → β → Prop}
    (hTracks : Tracks P x y)
    (hRelated : ∀ a b, P a b → P' a b) :
    Tracks P' x y := by
  intro a hResult
  rcases hTracks a hResult with ⟨b, hResult', hPair⟩
  exact ⟨b, hResult', hRelated a b hPair⟩

/- What every step keeps of two states, a fold keeps. -/
theorem Tracks.foldlM
    {f : α → γ → Except ε α}
    {g : β → γ → Except ε β}
    {cs : List γ}
    {a : α}
    {b : β}
    (hStart : P a b)
    (hEach : ∀ c ∈ cs, ∀ a b, P a b → Tracks P (f a c) (g b c)) :
    Tracks P (cs.foldlM f a) (cs.foldlM g b) := by
  induction cs generalizing a b with
  | nil => exact .of_ok hStart
  | cons c cs ih =>
      rcases List.forall_mem_cons.1 hEach with ⟨hHead, hTail⟩
      rw [List.foldlM_cons, List.foldlM_cons]
      exact (hHead a b hStart).bind fun _ _ hNext => ih hNext hTail

/- The same result of a first part may be used in both. -/
theorem Tracks.bind_eq
    {x y : Except ε α}
    {f g : α → Except ε β}
    (hFirst : Tracks (· = ·) x y)
    (hSecond : ∀ a, Tracks (· = ·) (f a) (g a)) :
    Tracks (· = ·) (x >>= f) (y >>= g) := by
  refine hFirst.bind fun a b hSame => ?_
  cases hSame
  exact hSecond a

theorem Tracks.eq_of_ok
    {x y : Except ε α}
    {a : α}
    (hTracks : Tracks (· = ·) x y)
    (hResult : x = .ok a) :
    y = .ok a := by
  rcases hTracks a hResult with ⟨b, hResult', hSame⟩
  rw [hResult', hSame]

theorem Tracks.foldlM_eq
    {f g : α → β → Except ε α}
    (hEach : ∀ a b, Tracks (· = ·) (f a b) (g a b))
    (bs : List β)
    (a : α) :
    Tracks (· = ·) (bs.foldlM f a) (bs.foldlM g a) := by
  refine .foldlM rfl fun b _ a a' hSame => ?_
  cases hSame
  exact hEach a b

/- A refusal that comes less often changes no result. -/
theorem Tracks.refusal
    {R : Type}
    {test test' : Prop}
    [Decidable test]
    [Decidable test']
    {cause cause' : Cause R}
    {x : Except (Fault R) α}
    (hTest : test' → test) :
    Tracks (· = ·) (if test then refuse cause else x)
      (if test' then refuse cause' else x) := by
  by_cases hRefused : test
  · rw [if_pos hRefused]
    exact .of_error
  · rw [if_neg hRefused, if_neg fun hAgain => hRefused (hTest hAgain)]
    exact .of_eq rfl

end Tracks

/-
  Two computations end with related results, or both with the
  same fault.
-/
inductive Alike
    (P : α → β → Prop) : Except ε α → Except ε β → Prop where
  | ok
      {a : α}
      {b : β}
      (hRelated : P a b) :
      Alike P (.ok a) (.ok b)
  | error
      (e : ε) :
      Alike P (.error e) (.error e)

section Alike

variable
  {γ δ : Type}
  {P : α → β → Prop}
  {Q : γ → δ → Prop}
  {x : Except ε α}
  {y : Except ε β}

theorem Alike.bind
    {f : α → Except ε γ}
    {g : β → Except ε δ}
    (hFirst : Alike P x y)
    (hSecond : ∀ a b, P a b → Alike Q (f a) (g b)) :
    Alike Q (x >>= f) (y >>= g) := by
  cases hFirst with
  | ok hRelated => exact hSecond _ _ hRelated
  | error e => exact .error e

/- The same computation may come first in both. -/
theorem Alike.bind_same
    {z z' : Except ε α}
    {f : α → Except ε γ}
    {g : α → Except ε δ}
    (hFirst : z' = z)
    (hSecond : ∀ a, z = .ok a → Alike Q (f a) (g a)) :
    Alike Q (z >>= f) (z' >>= g) := by
  rw [hFirst]
  cases z with
  | error e => exact .error e
  | ok a => exact hSecond a rfl

/- What every step keeps of two states, a fold keeps. -/
theorem Alike.foldlM
    {f : α → γ → Except ε α}
    {g : β → γ → Except ε β}
    {cs : List γ}
    {a : α}
    {b : β}
    (hStart : P a b)
    (hEach : ∀ c ∈ cs, ∀ a b, P a b → Alike P (f a c) (g b c)) :
    Alike P (cs.foldlM f a) (cs.foldlM g b) := by
  induction cs generalizing a b with
  | nil => exact .ok hStart
  | cons c cs ih =>
      rcases List.forall_mem_cons.1 hEach with ⟨hHead, hTail⟩
      rw [List.foldlM_cons, List.foldlM_cons]
      exact (hHead a b hStart).bind fun _ _ hNext => ih hNext hTail

theorem Alike.eq
    {y : Except ε α}
    (hAlike : Alike (· = ·) x y) :
    x = y := by
  cases hAlike with
  | ok hSame => rw [hSame]
  | error e => rfl

theorem Alike.imp
    {P' : α → β → Prop}
    (hAlike : Alike P x y)
    (hRelated : ∀ a b, P a b → P' a b) :
    Alike P' x y := by
  cases hAlike with
  | ok hPair => exact .ok (hRelated _ _ hPair)
  | error e => exact .error e

end Alike

------------------------------------------------------------
-- Refusals
------------------------------------------------------------

@[simp] theorem refuse_ne_ok
    {R : Type}
    {cause : Cause R}
    {a : α} :
    (refuse cause : Except (Fault R) α) ≠ .ok a := by
  simp [refuse]

@[simp] theorem refuse_eq_error_iff
    {R : Type}
    {cause : Cause R}
    {fault : Fault R} :
    (refuse cause : Except (Fault R) α) = .error fault ↔
      (⟨cause, none⟩ : Fault R) = fault := by
  simp [refuse]

/- What is not refused passes a test. -/
theorem ite_refuse_eq_ok_iff
    {R : Type}
    {test : Prop}
    [Decidable test]
    {cause : Cause R}
    {a b : α} :
    (if test then (.ok a : Except (Fault R) α) else refuse cause) =
        .ok b ↔
      test ∧ a = b := by
  by_cases hTest : test
  · simp [hTest]
  · simp [hTest]

/- A check that may refuse comes before everything else. -/
theorem ite_refuse_bind_eq_ok_iff
    {R : Type}
    {test : Prop}
    [Decidable test]
    {cause : Cause R}
    {f : α → Except (Fault R) β}
    {x : Except (Fault R) β}
    {b : β} :
    (if test then (refuse cause : Except (Fault R) α) >>= f else x) =
        .ok b ↔
      ¬ test ∧ x = .ok b := by
  by_cases hTest : test
  · simp [hTest, refuse]
  · simp [hTest]

@[simp] theorem toOption_refuse
    {R : Type}
    (cause : Cause R) :
    (refuse cause : Except (Fault R) α).toOption = none :=
  rfl

------------------------------------------------------------
-- Lists
------------------------------------------------------------

theorem mapM_congr
    {f g : α → Except ε β}
    {xs : List α}
    (hSame : ∀ x ∈ xs, f x = g x) :
    xs.mapM f = xs.mapM g := by
  induction xs with
  | nil => rfl
  | cons x xs ih =>
      have hTail := ih fun y hMember =>
        hSame y (List.mem_cons_of_mem _ hMember)
      rw [List.mapM_cons, List.mapM_cons,
        hSame x List.mem_cons_self, hTail]

theorem forM_congr
    {f g : α → Except ε Unit}
    {xs : List α}
    (hSame : ∀ x ∈ xs, f x = g x) :
    xs.forM f = xs.forM g := by
  induction xs with
  | nil => rfl
  | cons x xs ih =>
      change (f x >>= fun _ => xs.forM f) = (g x >>= fun _ => xs.forM g)
      rw [hSame x List.mem_cons_self,
        ih fun y hMember => hSame y (List.mem_cons_of_mem _ hMember)]

/- A computation succeeds on a list if it does on each member. -/
theorem mapM_eq_ok_iff
    {f : α → Except ε β}
    {xs : List α}
    {ys : List β} :
    xs.mapM f = .ok ys ↔
      List.Forall₂ (fun x y => f x = .ok y) xs ys := by
  induction xs generalizing ys with
  | nil =>
      cases ys with
      | nil => simp
      | cons y ys => simp
  | cons x xs ih =>
      rw [List.mapM_cons]
      constructor
      · intro hMapped
        rcases bind_eq_ok_iff.1 hMapped with ⟨y, hHead, hRest⟩
        rcases bind_eq_ok_iff.1 hRest with ⟨later, hTail, hCons⟩
        cases pure_eq_ok_iff.1 hCons
        exact .cons hHead (ih.1 hTail)
      · intro hEach
        cases hEach with
        | cons hHead hTail =>
            rw [hHead, ih.2 hTail]
            rfl

theorem exists_of_forall₂_left
    {P : α → β → Prop}
    {xs : List α}
    {ys : List β}
    (hEach : List.Forall₂ P xs ys) :
    ∀ x ∈ xs, ∃ y ∈ ys, P x y := by
  induction hEach with
  | nil => simp
  | @cons x y xs ys hHead _ ih =>
      intro x' hMember
      rcases List.mem_cons.1 hMember with rfl | hTail
      · exact ⟨y, List.mem_cons_self, hHead⟩
      · rcases ih x' hTail with ⟨y', hLater, hPair⟩
        exact ⟨y', List.mem_cons_of_mem _ hLater, hPair⟩

theorem exists_of_forall₂_right
    {P : α → β → Prop}
    {xs : List α}
    {ys : List β}
    (hEach : List.Forall₂ P xs ys) :
    ∀ y ∈ ys, ∃ x ∈ xs, P x y :=
  exists_of_forall₂_left hEach.flip

/- Members that have partners can be listed with them. -/
theorem exists_forall₂
    {P : α → β → Prop}
    {xs : List α}
    (hEach : ∀ x ∈ xs, ∃ y, P x y) :
    ∃ ys, List.Forall₂ P xs ys := by
  induction xs with
  | nil => exact ⟨[], .nil⟩
  | cons x xs ih =>
      rcases List.forall_mem_cons.1 hEach with ⟨⟨y, hHead⟩, hTail⟩
      rcases ih hTail with ⟨ys, hRest⟩
      exact ⟨y :: ys, .cons hHead hRest⟩

theorem exists_of_mapM_eq_ok
    {f : α → Except ε β}
    {xs : List α}
    {ys : List β}
    (hMapped : xs.mapM f = .ok ys) :
    ∀ x ∈ xs, ∃ y, f x = .ok y := by
  intro x hMember
  rcases exists_of_forall₂_left (mapM_eq_ok_iff.1 hMapped) x hMember with
    ⟨y, _, hValue⟩
  exact ⟨y, hValue⟩

/- A check passes on a list if it does on each member. -/
theorem forM_eq_ok_iff
    {f : α → Except ε Unit}
    {xs : List α} :
    xs.forM f = .ok () ↔ ∀ x ∈ xs, f x = .ok () := by
  induction xs with
  | nil => simp [List.forM, pure, Except.pure]
  | cons x xs ih =>
      change (f x >>= fun _ => xs.forM f) = .ok () ↔ _
      rw [unit_bind_eq_ok_iff, ih, List.forall_mem_cons]

/- A check that fails on a list fails on a first member. -/
theorem forM_eq_error_iff
    {f : α → Except ε Unit}
    {xs : List α}
    {e : ε} :
    xs.forM f = .error e ↔
      ∃ before x after, xs = before ++ x :: after ∧
        (∀ y ∈ before, f y = .ok ()) ∧ f x = .error e := by
  induction xs with
  | nil => simp [List.forM, pure, Except.pure]
  | cons x xs ih =>
      change (f x >>= fun _ => xs.forM f) = .error e ↔ _
      rw [bind_eq_error_iff, ih]
      constructor
      · rintro (hHead | ⟨_, hHead, before, y, after, rfl, hBefore, hFails⟩)
        · exact ⟨[], x, xs, rfl, by simp, hHead⟩
        · exact ⟨x :: before, y, after, rfl,
            List.forall_mem_cons.2 ⟨hHead, hBefore⟩, hFails⟩
      · rintro ⟨before, y, after, hSplit, hBefore, hFails⟩
        cases before with
        | nil =>
            cases hSplit
            exact .inl hFails
        | cons z before =>
            cases hSplit
            rcases List.forall_mem_cons.1 hBefore with ⟨hHead, hLater⟩
            exact .inr ⟨(), hHead, before, y, after, rfl, hLater, hFails⟩

/- Members that pass a check can be left out. -/
theorem forM_filter
    {f : α → Except ε Unit}
    {keep : α → Bool}
    {xs : List α}
    (hPasses : ∀ x ∈ xs, keep x = false → f x = .ok ()) :
    (xs.filter keep).forM f = xs.forM f := by
  induction xs with
  | nil => rfl
  | cons x xs ih =>
      rcases List.forall_mem_cons.1 hPasses with ⟨hHead, hTail⟩
      change _ = (f x >>= fun _ => xs.forM f)
      rw [← ih hTail]
      cases hKeep : keep x with
      | true =>
          rw [List.filter_cons_of_pos hKeep]
          rfl
      | false =>
          rw [List.filter_cons_of_neg (by simp [hKeep]), hHead hKeep]
          rfl

end QuantumLab
