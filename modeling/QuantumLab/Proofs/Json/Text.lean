import QuantumLab.Json.Parse
import QuantumLab.Json.Render
import QuantumLab.Proofs.Outcome
import Mathlib.Data.List.TakeWhile

/-
  This file proves that a value is read back from its text.
  How the texts of real numbers are chosen is left open: each
  of them has to be a number that reads back, and the rest of
  a text does not depend on them.

  Key definitions include:
    * `Json.Text.Closes`, `Json.Text.Opens`
    * `Json.Text.ReadsBack`
    * `Json.Legible`

  Main statements:
    * `Json.Text.string?_quoted` says that a string is read
      back from its quoted text.
    * `Json.Text.number?_toString` says the same of integers
      of 64 bits.
    * `Json.Text.number?_append` says that a number is read
      regardless of what is after it.
    * `Json.parse?_renderWith` says that a legible value is
      read back from its text.
-/

namespace QuantumLab

namespace Json

namespace Text

------------------------------------------------------------
-- Strings
------------------------------------------------------------

/- A short escape stands for its character. -/
theorem escape?_shortEscape
    {c e : Char}
    (hEscape : shortEscape? c = some e)
    (rest : List Char) :
    escape? (e :: rest) = some (c, rest) := by
  unfold shortEscape? at hEscape
  split_ifs at hEscape with hQuote hSlash hBack hForm hLine hReturn hTab <;>
    cases hEscape <;> subst c <;> rfl

/- A hexadecimal digit has the value that it was written for. -/
theorem hexDigit?_hexCharacter
    {n : Nat}
    (hDigit : n < 16) :
    hexDigit? (hexCharacter n) = some n := by
  revert n
  decide

/- An escape by code unit stands for its control character. -/
theorem unicode?_written
    {c : Char}
    (hControl : c.toNat < 32)
    (rest : List Char) :
    unicode?
        ('0' :: '0' :: hexCharacter (c.toNat / 16)
          :: hexCharacter (c.toNat % 16) :: rest) =
      some (c, rest) := by
  have hUnit :
      hexUnit?
          ('0' :: '0' :: hexCharacter (c.toNat / 16)
            :: hexCharacter (c.toNat % 16) :: rest) =
        some (c.toNat, rest) := by
    have hZero : hexDigit? '0' = some 0 := by decide
    have hSum : c.toNat / 16 * 16 + c.toNat % 16 = c.toNat :=
      Nat.div_add_mod' c.toNat 16
    simp [hexUnit?, hZero,
      hexDigit?_hexCharacter (show c.toNat / 16 < 16 by omega),
      hexDigit?_hexCharacter (show c.toNat % 16 < 16 by omega), hSum]
  have hHigh : ¬(0xD800 ≤ c.toNat ∧ c.toNat < 0xDC00) := by omega
  have hLow : ¬(0xDC00 ≤ c.toNat ∧ c.toNat < 0xE000) := by omega
  simp [unicode?, hUnit, hHigh, hLow]

/- A character is read from what is written for it. -/
theorem characters?_written
    (fuel : Nat)
    (c : Char)
    (text : List Char) :
    characters? (fuel + 1) (written c ++ text) =
      (characters? fuel text).map fun (later, rest) =>
        (c :: later, rest) := by
  unfold written
  split
  · next e hEscape =>
      cases hLater : characters? fuel text <;>
        simp [characters?, escape?_shortEscape hEscape, hLater]
  · next hNone =>
      split
      · next hControl =>
          cases hLater : characters? fuel text <;>
            simp [characters?, escape?, unicode?_written hControl, hLater]
      · next hPrintable =>
          have hQuote : c ≠ '"' := by
            rintro rfl
            cases hNone
          have hSlash : c ≠ '\\' := by
            rintro rfl
            cases hNone
          rw [List.singleton_append, characters?]
          · rw [if_neg hPrintable]
            cases characters? fuel text <;> rfl
          · intro hc
            exact absurd hc hQuote
          · intro hc
            exact absurd hc hSlash

/- The characters of a string are read up to the closing quote. -/
theorem characters?_flatMap_written
    (cs rest : List Char)
    (fuel : Nat)
    (hFuel : cs.length < fuel) :
    characters? fuel (cs.flatMap written ++ '"' :: rest) =
      some (cs, rest) := by
  induction cs generalizing fuel with
  | nil =>
      obtain ⟨fuel, rfl⟩ := Nat.exists_eq_add_one_of_ne_zero
        (Nat.ne_of_gt hFuel)
      rfl
  | cons c cs ih =>
      obtain ⟨fuel, rfl⟩ := Nat.exists_eq_add_one_of_ne_zero
        (Nat.ne_zero_of_lt hFuel)
      rw [List.flatMap_cons, List.append_assoc, characters?_written,
        ih fuel (Nat.lt_of_succ_lt_succ hFuel)]
      rfl

/- Every character takes room. -/
theorem length_le_flatMap_written
    (cs : List Char) :
    cs.length ≤ (cs.flatMap written).length := by
  have hWritten (c : Char) : 1 ≤ (written c).length := by
    unfold written
    split
    · exact Nat.le_of_ble_eq_true rfl
    · split <;> simp
  induction cs with
  | nil => exact Nat.le_refl 0
  | cons c cs ih =>
      have := hWritten c
      simp only [List.flatMap_cons, List.length_append, List.length_cons]
      omega

/- The text of a string in quotes. -/
theorem toList_quoted
    (s : String) :
    (quoted s).toList =
      '"' :: (s.toList.flatMap written ++ ['"']) := by
  simp [quoted]

/- A string is read back from its quoted text. -/
theorem string?_quoted
    (s : String)
    (rest : List Char) :
    string? (s.toList.flatMap written ++ '"' :: rest) = some (s, rest) := by
  have hRoom := length_le_flatMap_written s.toList
  unfold string?
  rw [characters?_flatMap_written s.toList rest]
  · simp
  · simp only [List.length_append]
    omega

------------------------------------------------------------
-- Numbers
------------------------------------------------------------

/- What may stand after a number: nothing, a comma or a closing bracket. -/
def Closes (rest : List Char) : Prop :=
  ∀ c ∈ rest.head?, c = ',' ∨ c = ']' ∨ c = '}'

theorem closes_nil : Closes [] := by
  simp [Closes]

theorem closes_cons
    {c : Char}
    {rest : List Char}
    (hClosing : c = ',' ∨ c = ']' ∨ c = '}') :
    Closes (c :: rest) := by
  simpa [Closes] using hClosing

/-
  A part of a number that is read regardless of what stands
  after the number.
-/
def Local
    {α : Type}
    (read : List Char → Option (α × List Char)) : Prop :=
  ∀ (text left rest : List Char) (x : α), Closes rest →
    read text = some (x, left) →
      read (text ++ rest) = some (x, left ++ rest)

/- Leading digits end where the rest of a text begins. -/
theorem digits_append
    {rest : List Char}
    (text : List Char)
    (hRest : Closes rest) :
    digits (text ++ rest) = ((digits text).1, (digits text).2 ++ rest) := by
  have hNone : rest.takeWhile Char.isDigit = [] ∧
      rest.dropWhile Char.isDigit = rest := by
    cases rest with
    | nil => exact ⟨rfl, rfl⟩
    | cons c rest =>
        have hDigit : c.isDigit = false := by
          rcases hRest c rfl with rfl | rfl | rfl <;> rfl
        simp [hDigit]
  induction text with
  | nil => exact Prod.ext hNone.1 hNone.2
  | cons c text ih =>
      have hTail := Prod.mk.inj ih
      by_cases hDigit : c.isDigit = true
      · simp only [digits, List.cons_append,
          List.takeWhile_cons_of_pos hDigit,
          List.dropWhile_cons_of_pos hDigit, hTail.1, hTail.2]
      · simp only [digits, List.cons_append,
          List.takeWhile_cons_of_neg hDigit,
          List.dropWhile_cons_of_neg hDigit]

theorem local_whole : Local whole? := by
  intro text left rest ds hRest hWhole
  unfold whole? at hWhole ⊢
  rw [digits_append text hRest]
  generalize digits text = parts at hWhole ⊢
  obtain ⟨ds', left'⟩ := parts
  split at hWhole <;> simp_all

theorem local_fraction : Local fraction? := by
  intro text left rest fraction hRest hFraction
  cases text with
  | nil =>
      cases hFraction
      cases rest with
      | nil => rfl
      | cons c rest =>
          rcases hRest c rfl with rfl | rfl | rfl <;> rfl
  | cons c text =>
      by_cases hPoint : c = '.'
      · subst hPoint
        simp only [fraction?, List.cons_append, digits_append text hRest]
          at hFraction ⊢
        generalize digits text = parts at hFraction ⊢
        obtain ⟨ds, left'⟩ := parts
        cases ds with
        | nil => cases hFraction
        | cons d ds => cases hFraction; rfl
      · have hNone (text : List Char) :
            fraction? (c :: text) = some (none, c :: text) := by
          unfold fraction?
          split
          · next heq => exact absurd (List.cons.inj heq).1 hPoint
          · rfl
        rw [hNone] at hFraction
        cases hFraction
        exact hNone (text ++ rest)

theorem local_exponentDigits
    (negative : Bool) :
    Local (exponentDigits? negative) := by
  intro text left rest exponent hRest hExponent
  unfold exponentDigits? at hExponent ⊢
  rw [digits_append text hRest]
  generalize digits text = parts at hExponent ⊢
  obtain ⟨ds, left'⟩ := parts
  cases ds with
  | nil => cases hExponent
  | cons d ds => cases hExponent; rfl

/- An exponent after its mark, by the sign that follows. -/
theorem exponent?_mark
    {c d : Char}
    {text : List Char}
    (hMark : c = 'e' ∨ c = 'E') :
    exponent? (c :: d :: text) =
      if d = '-' then exponentDigits? true text
      else if d = '+' then exponentDigits? false text
      else exponentDigits? false (d :: text) := by
  simp only [exponent?, hMark, if_true]
  split
  · next heq =>
      rw [(List.cons.inj heq).1, (List.cons.inj heq).2, if_pos rfl]
  · next heq =>
      rw [(List.cons.inj heq).1, (List.cons.inj heq).2, if_neg (by decide),
        if_pos rfl]
  · next hMinus hPlus =>
      rw [if_neg (fun heq => hMinus text (by rw [heq])),
        if_neg (fun heq => hPlus text (by rw [heq]))]

theorem local_exponent : Local exponent? := by
  intro text left rest exponent hRest hExponent
  cases text with
  | nil =>
      cases hExponent
      cases rest with
      | nil => rfl
      | cons c rest =>
          rcases hRest c rfl with rfl | rfl | rfl <;> rfl
  | cons c text =>
      by_cases hMark : c = 'e' ∨ c = 'E'
      · cases text with
        | nil =>
            simp [exponent?, hMark, exponentDigits?, digits] at hExponent
        | cons d text =>
            rw [exponent?_mark hMark] at hExponent
            rw [List.cons_append, List.cons_append, exponent?_mark hMark]
            split_ifs at hExponent ⊢ with hMinus hPlus
            · exact local_exponentDigits true _ _ _ _ hRest hExponent
            · exact local_exponentDigits false _ _ _ _ hRest hExponent
            · exact local_exponentDigits false _ _ _ _ hRest hExponent
      · simp only [exponent?, hMark, if_false, List.cons_append]
          at hExponent ⊢
        cases hExponent
        rfl

/- A number is read regardless of what is after it. -/
theorem local_number : Local number? := by
  intro text left rest j hRest hNumber
  have hHead : (text ++ rest).head? = text.head? := by
    cases text with
    | nil => cases hNumber
    | cons c text => rfl
  have hDrop : (text ++ rest).drop 1 = text.drop 1 ++ rest := by
    cases text with
    | nil => cases hNumber
    | cons c text => rfl
  simp only [number?, hHead, hDrop, ← apply_ite (· ++ rest),
    Option.bind_eq_bind] at hNumber ⊢
  rcases Option.bind_eq_some_iff.1 hNumber with
    ⟨⟨whole, afterWhole⟩, hWhole, hNumber⟩
  rcases Option.bind_eq_some_iff.1 hNumber with
    ⟨⟨fraction, afterFraction⟩, hFraction, hNumber⟩
  rcases Option.bind_eq_some_iff.1 hNumber with
    ⟨⟨exponent, afterExponent⟩, hExponent, hNumber⟩
  rw [local_whole _ _ _ _ hRest hWhole, Option.bind_some,
    local_fraction _ _ _ _ hRest hFraction, Option.bind_some,
    local_exponent _ _ _ _ hRest hExponent, Option.bind_some]
  have hPair {integer : Bool} {n : Json} {value : Option Json}
      {after : List Char} :
      (if integer = true then pure (n, after)
        else value.bind fun v => pure (v, after)) =
        (if integer then some n else value).map (·, after) := by
    cases integer <;> cases value <;> rfl
  rw [hPair, Option.map_eq_some_iff] at hNumber ⊢
  rcases hNumber with ⟨value, hValue, hDone⟩
  cases hDone
  exact ⟨_, hValue, rfl⟩

/- The digits of a positive number do not start with a zero. -/
theorem head?_toDigits
    {n : Nat}
    (hPositive : 0 < n) :
    (Nat.toDigits 10 n).head? ≠ some '0' := by
  induction n using Nat.strongRecOn with
  | ind n ih =>
      rw [Nat.toDigits_eq_if (by decide)]
      split
      · next hDigit =>
          have hNonzero : ∀ d < 10, 0 < d → d.digitChar ≠ '0' := by
            decide
          simpa using hNonzero n hDigit hPositive
      · next hLarge =>
          rw [List.head?_append_of_ne_nil _ Nat.toDigits_ne_nil]
          exact ih (n / 10) (by omega) (by omega)

/- The digits of a natural number are a whole part. -/
theorem whole?_toDigits
    (n : Nat) :
    whole? (Nat.toDigits 10 n) = some (Nat.toDigits 10 n, []) := by
  have hDigits : ∀ c ∈ Nat.toDigits 10 n, c.isDigit = true := fun c hc =>
    Nat.isDigit_of_mem_toDigits (by decide) (by decide) hc
  have hAll : digits (Nat.toDigits 10 n) = (Nat.toDigits 10 n, []) :=
    Prod.ext (List.takeWhile_eq_self_iff.2 hDigits)
      (List.dropWhile_eq_nil_iff.2 hDigits)
  unfold whole?
  rw [hAll]
  split
  · next heq =>
      exact absurd (Prod.mk.inj heq).1 Nat.toDigits_ne_nil
  · next heq =>
      rcases Nat.eq_zero_or_pos n with rfl | hPositive
      · cases heq
      · have hHead := head?_toDigits hPositive
        rw [(Prod.mk.inj heq).1] at hHead
        exact absurd rfl hHead
  · rfl

/- The digits of a natural number stand for it. -/
theorem digitsValue_toDigits
    (n : Nat) :
    digitsValue (Nat.toDigits 10 n) = n := by
  have hStep :
      (fun (n : Nat) (c : Char) => n * 10 + (c.toNat - '0'.toNat)) =
        fun n c => 10 * n + (c.toNat - '0'.toNat) := by
    funext n c
    rw [Nat.mul_comm]
  rw [digitsValue, hStep]
  exact Nat.ofDigitChars_toDigits (by decide) (by decide)

/- The digits of a natural number have no sign in front. -/
theorem head?_toDigits_ne_minus
    (n : Nat) :
    (Nat.toDigits 10 n).head? ≠ some '-' := by
  intro hHead
  have hDigit : Char.isDigit '-' = true :=
    Nat.isDigit_of_mem_toDigits (by decide) (by decide)
      (List.mem_of_mem_head? hHead)
  cases hDigit

/- A sign and the digits of a natural number are an integer. -/
theorem number?_of_digits
    {negative : Bool}
    {text : List Char}
    {n : Nat}
    (hSign : (text.head? == some '-') = negative)
    (hDigits :
      (if negative then text.drop 1 else text) = Nat.toDigits 10 n)
    (hFits : fitsWord (if negative then -(n : Int) else n) = true) :
    number? text = some (int (if negative then -(n : Int) else n), []) := by
  have hFraction : fraction? [] = some (none, []) := rfl
  have hExponent : exponent? [] = some (none, []) := rfl
  simp only [number?, hSign, hDigits, whole?_toDigits, hFraction,
    hExponent, Option.bind_eq_bind, Option.bind_some, digitsValue_toDigits,
    hFits]
  rfl

/- An integer of 64 bits is read back from its text. -/
theorem number?_toString
    {n : Int}
    (hFits : fitsWord n = true) :
    number? (toString n).toList = some (int n, []) := by
  cases n with
  | ofNat n =>
      have hText : (toString (Int.ofNat n)).toList = Nat.toDigits 10 n :=
        Nat.toList_repr
      rw [hText]
      have hSign : ((Nat.toDigits 10 n).head? == some '-') = false :=
        beq_eq_false_iff_ne.2 (head?_toDigits_ne_minus n)
      exact number?_of_digits hSign rfl hFits
  | negSucc n =>
      have hText :
          (toString (Int.negSucc n)).toList =
            '-' :: Nat.toDigits 10 (n + 1) := by
        change ("-" ++ (n + 1).repr).toList = _
        rw [String.toList_append, Nat.toList_repr]
        rfl
      have hNumber : number? ('-' :: Nat.toDigits 10 (n + 1)) =
          some (int (-((n + 1 : Nat) : Int)), []) :=
        number?_of_digits rfl (if_pos rfl) hFits
      rw [hText, hNumber]
      rfl

------------------------------------------------------------
-- Values
------------------------------------------------------------

/- A text that can start a value: no blank and no closing bracket. -/
def Opens (text : List Char) : Prop :=
  ∃ c later, text = c :: later ∧
    isBlank c = false ∧ c ≠ ']' ∧ c ≠ '}'

/- Nothing is skipped before a text that starts a value. -/
theorem Opens.skip_append
    {text : List Char}
    (hOpens : Opens text)
    (rest : List Char) :
    skip (text ++ rest) = text ++ rest := by
  rcases hOpens with ⟨c, later, rfl, hBlank, _⟩
  exact List.dropWhile_cons_of_neg (by rw [hBlank]; decide)

/- Nothing is skipped before a character that is not blank. -/
theorem skip_separator
    {c : Char}
    (hBlank : isBlank c = false)
    (rest : List Char) :
    skip (c :: rest) = c :: rest :=
  List.dropWhile_cons_of_neg (by rw [hBlank]; decide)

/- What is after a character that a text starts with. -/
theorem after?_cons
    (c : Char)
    (rest : List Char) :
    after? [c] (c :: rest) = some rest := by
  simp [after?]

theorem opens_of_number
    {text left : List Char}
    {j : Json}
    (hNumber : number? text = some (j, left)) :
    Opens text := by
  cases text with
  | nil => cases hNumber
  | cons c text =>
      refine ⟨c, text, rfl, ?_, ?_, ?_⟩
      · by_contra hBlank
        simp only [isBlank, Bool.not_eq_false, Bool.or_eq_true,
          beq_iff_eq] at hBlank
        rcases hBlank with ((rfl | rfl) | rfl) | rfl <;> cases hNumber
      · rintro rfl
        cases hNumber
      · rintro rfl
        cases hNumber

/- What reads as a number is a number. -/
theorem value?_of_number
    {text left : List Char}
    {j : Json}
    (fuel : Nat)
    (hNumber : number? text = some (j, left)) :
    value? (fuel + 1) text = some (j, left) := by
  unfold value?
  split <;> first | cases hNumber | exact hNumber

/- The text chosen for a real number is a number that reads back. -/
def ReadsBack (number : Float → String) (x : Float) : Prop :=
  number? (number x).toList = some (real x, [])

/-
  A value that is read back from its text, whatever follows
  that can follow a value.
-/
structure Recovers (number : Float → String) (j : Json) : Prop where
  opens : Opens (j.renderWith number).toList
  value : ∀ (fuel : Nat) (rest : List Char),
    2 * (j.renderWith number).toList.length ≤ fuel → Closes rest →
      value? fuel ((j.renderWith number).toList ++ rest) = some (j, rest)

variable {number : Float → String}

/-
  A value is recovered if its text, with anything after it,
  is read with any fuel at all.
-/
theorem recovers_of_word
    {j : Json}
    {word : List Char}
    (hText : (j.renderWith number).toList = word)
    (hOpens : Opens word)
    (hValue : ∀ (fuel : Nat) (rest : List Char), Closes rest →
      value? (fuel + 1) (word ++ rest) = some (j, rest)) :
    Recovers number j where
  opens := hText ▸ hOpens
  value fuel rest hFuel hRest := by
    rw [hText] at hFuel ⊢
    cases fuel with
    | zero =>
        rcases hOpens with ⟨c, later, rfl, _⟩
        rw [List.length_cons] at hFuel
        omega
    | succ fuel => exact hValue fuel rest hRest

theorem recovers_of_number
    {j : Json}
    (hNumber :
      number? (j.renderWith number).toList = some (j, [])) :
    Recovers number j :=
  recovers_of_word rfl (opens_of_number hNumber) fun fuel _ hRest =>
    value?_of_number fuel (local_number _ _ _ _ hRest hNumber)

theorem recovers_null : Recovers number null :=
  recovers_of_word (show _ = "null".toList by rw [renderWith])
    ⟨'n', _, rfl, by decide⟩ fun _ _ _ => rfl

theorem recovers_bool
    (b : Bool) :
    Recovers number (bool b) := by
  cases b with
  | true =>
      exact recovers_of_word
        (show _ = "true".toList by rw [renderWith, if_pos rfl])
        ⟨'t', _, rfl, by decide⟩ fun _ _ _ => rfl
  | false =>
      exact recovers_of_word
        (show _ = "false".toList by rw [renderWith, if_neg (by decide)])
        ⟨'f', _, rfl, by decide⟩ fun _ _ _ => rfl

theorem recovers_str
    (s : String) :
    Recovers number (str s) := by
  refine recovers_of_word (by rw [renderWith, toList_quoted])
    ⟨'"', _, rfl, by decide⟩ fun fuel rest _ => ?_
  simp [value?, string?_quoted]

------------------------------------------------------------
-- Elements and members
------------------------------------------------------------

theorem toList_separated_singleton
    (text : String) :
    (separated [text]).toList = text.toList := by
  simp [separated]

theorem toList_separated_cons_cons
    (text next : String)
    (texts : List String) :
    (separated (text :: next :: texts)).toList =
      text.toList ++ ',' :: (separated (next :: texts)).toList := by
  simp [separated, String.intercalate_cons_cons]

/- Texts start like the first of them. -/
theorem opens_separated
    {text : String}
    (texts : List String)
    (hOpens : Opens text.toList) :
    Opens (separated (text :: texts)).toList := by
  cases texts with
  | nil => rwa [toList_separated_singleton]
  | cons next texts =>
      rw [toList_separated_cons_cons]
      rcases hOpens with ⟨c, later, hText, hHead⟩
      rw [hText]
      exact ⟨c, _, rfl, hHead⟩

theorem toList_arr
    (xs : List Json) :
    ((arr xs).renderWith number).toList =
      '[' :: ((separated (renderElements number xs)).toList ++ [']']) := by
  simp [renderWith]

theorem toList_obj
    (members : List (String × Json)) :
    ((obj members).renderWith number).toList =
      '{' :: ((separated (renderMembers number members)).toList ++
        ['}']) := by
  simp [renderWith]

/- The text of a member. -/
theorem toList_member
    (name : String)
    (x : Json) :
    (quoted name ++ ":" ++ x.renderWith number).toList =
      '"' :: (name.toList.flatMap written ++
        '"' :: ':' :: (x.renderWith number).toList) := by
  simp [toList_quoted]

/- A member takes at least the room of its value. -/
theorem length_le_toList_member
    (number : Float → String)
    (name : String)
    (x : Json) :
    (x.renderWith number).toList.length ≤
      (quoted name ++ ":" ++ x.renderWith number).toList.length := by
  simp only [toList_member, List.length_cons, List.length_append]
  omega

/-
  Elements are read back up to the end of their array.  The
  induction is on the elements; each of them and each comma
  takes room in the text, which the fuel counts twice.
-/
theorem elements?_renderElements
    (x : Json)
    (xs : List Json)
    (hElements : ∀ y ∈ x :: xs, Recovers number y)
    (fuel : Nat)
    (rest : List Char)
    (hFuel :
      2 * (separated (renderElements number (x :: xs))).toList.length
        < fuel) :
    elements? fuel
        ((separated (renderElements number (x :: xs))).toList ++
          ']' :: rest) =
      some (x :: xs, rest) := by
  induction xs generalizing x fuel with
  | nil =>
      obtain ⟨fuel, rfl⟩ := Nat.exists_eq_add_one_of_ne_zero
        (Nat.ne_zero_of_lt hFuel)
      simp only [renderElements, toList_separated_singleton] at hFuel ⊢
      rw [elements?, (hElements x List.mem_cons_self).value fuel
        (']' :: rest) (by omega) (closes_cons (.inr (.inl rfl)))]
      rfl
  | cons y xs ih =>
      obtain ⟨fuel, rfl⟩ := Nat.exists_eq_add_one_of_ne_zero
        (Nat.ne_zero_of_lt hFuel)
      have hLater : ∀ z ∈ y :: xs, Recovers number z := fun z hz =>
        hElements z (List.mem_cons_of_mem x hz)
      have hOpens :
          Opens (separated (renderElements number (y :: xs))).toList :=
        opens_separated _ (hLater y List.mem_cons_self).opens
      rw [renderElements] at hFuel ⊢
      rw [renderElements, toList_separated_cons_cons, ← renderElements]
        at hFuel ⊢
      simp only [List.length_append, List.length_cons] at hFuel
      have hRead := ih y hLater fuel (by omega)
      rw [List.append_assoc, List.cons_append, elements?,
        (hElements x List.mem_cons_self).value fuel _ (by omega)
          (closes_cons (.inl rfl))]
      simp only [Option.bind_eq_bind, Option.bind_some,
        skip_separator (by decide : isBlank ',' = false),
        hOpens.skip_append, hRead]
      rfl

/- A member is read, and then what follows it decides. -/
theorem members?_member
    {x : Json}
    (name : String)
    (hValue : Recovers number x)
    (fuel : Nat)
    (rest : List Char)
    (hFuel : 2 * (x.renderWith number).toList.length ≤ fuel)
    (hRest : Closes rest) :
    members? (fuel + 1)
        ((quoted name ++ ":" ++ x.renderWith number).toList ++ rest) =
      match skip rest with
      | '}' :: rest => some ([(name, x)], rest)
      | ',' :: rest => do
          let (later, rest) ← members? fuel (skip rest)
          return ((name, x) :: later, rest)
      | _ => none := by
  simp only [toList_member, List.append_assoc, List.cons_append, members?,
    after?_cons, string?_quoted, Option.bind_eq_bind, Option.bind_some,
    skip_separator (by decide : isBlank ':' = false),
    hValue.opens.skip_append, hValue.value fuel rest hFuel hRest]
  rfl

/- Members are read back up to the end of their object. -/
theorem members?_renderMembers
    (m : String × Json)
    (members : List (String × Json))
    (hMembers : ∀ p ∈ m :: members, Recovers number p.2)
    (fuel : Nat)
    (rest : List Char)
    (hFuel :
      2 * (separated (renderMembers number (m :: members))).toList.length
        < fuel) :
    members? fuel
        ((separated (renderMembers number (m :: members))).toList ++
          '}' :: rest) =
      some (m :: members, rest) := by
  induction members generalizing m fuel with
  | nil =>
      obtain ⟨fuel, rfl⟩ := Nat.exists_eq_add_one_of_ne_zero
        (Nat.ne_zero_of_lt hFuel)
      obtain ⟨name, x⟩ := m
      have hValue : Recovers number x := hMembers (name, x) (by simp)
      rw [renderMembers, renderMembers, toList_separated_singleton]
        at hFuel ⊢
      have hRoom := length_le_toList_member number name x
      rw [members?_member name hValue fuel _ (by omega)
        (closes_cons (.inr (.inr rfl)))]
      rfl
  | cons p members ih =>
      obtain ⟨fuel, rfl⟩ := Nat.exists_eq_add_one_of_ne_zero
        (Nat.ne_zero_of_lt hFuel)
      obtain ⟨name, x⟩ := m
      obtain ⟨next, y⟩ := p
      have hLater : ∀ q ∈ (next, y) :: members, Recovers number q.2 :=
        fun q hq => hMembers q (List.mem_cons_of_mem _ hq)
      have hValue : Recovers number x := hMembers (name, x) (by simp)
      have hOpens :
          Opens
            (separated
              (renderMembers number ((next, y) :: members))).toList :=
        opens_separated _ ⟨'"', _, toList_member next y, by decide⟩
      rw [renderMembers, renderMembers, toList_separated_cons_cons,
        ← renderMembers] at hFuel ⊢
      have hRoom := length_le_toList_member number name x
      simp only [List.length_append, List.length_cons] at hFuel
      have hRead := ih (next, y) hLater fuel (by omega)
      rw [List.append_assoc, List.cons_append,
        members?_member name hValue fuel _ (by omega)
          (closes_cons (.inl rfl)),
        skip_separator (by decide)]
      simp only [hOpens.skip_append, hRead]
      rfl

------------------------------------------------------------
-- Arrays and objects
------------------------------------------------------------

/-
  Between brackets that are not empty the text does not start
  with a closing one.
-/
theorem recovers_arr
    {xs : List Json}
    (hElements : ∀ x ∈ xs, Recovers number x) :
    Recovers number (arr xs) where
  opens := by
    rw [toList_arr]
    exact ⟨'[', _, rfl, by decide⟩
  value fuel rest hFuel hRest := by
    rw [toList_arr] at hFuel ⊢
    simp only [List.length_cons, List.length_append] at hFuel
    obtain ⟨fuel, rfl⟩ := Nat.exists_eq_add_one_of_ne_zero
      (show fuel ≠ 0 by omega)
    cases xs with
    | nil => simp [renderElements, separated, value?, skip, isBlank]
    | cons x xs =>
        have hOpens :
            Opens (separated (renderElements number (x :: xs))).toList :=
          opens_separated _ (hElements x List.mem_cons_self).opens
        have hRead := elements?_renderElements x xs hElements fuel rest
          (by omega)
        have hSkip := hOpens.skip_append (']' :: rest)
        rcases hOpens with ⟨c, later, hText, _, hArray, _⟩
        rw [hText] at hRead hSkip ⊢
        simp only [List.cons_append, List.append_assoc, List.nil_append,
          value?] at hRead hSkip ⊢
        rw [hSkip]
        split
        · next heq => exact absurd (List.cons.inj heq).1 hArray
        · rw [hRead]
          rfl

theorem recovers_obj
    {members : List (String × Json)}
    (hNames : Ascending members)
    (hMembers : ∀ m ∈ members, Recovers number m.2) :
    Recovers number (obj members) where
  opens := by
    rw [toList_obj]
    exact ⟨'{', _, rfl, by decide⟩
  value fuel rest hFuel hRest := by
    rw [toList_obj] at hFuel ⊢
    simp only [List.length_cons, List.length_append] at hFuel
    obtain ⟨fuel, rfl⟩ := Nat.exists_eq_add_one_of_ne_zero
      (show fuel ≠ 0 by omega)
    cases members with
    | nil => simp [renderMembers, separated, value?, skip, isBlank]
    | cons m members =>
        have hOpens :
            Opens
              (separated (renderMembers number (m :: members))).toList :=
          opens_separated _ ⟨'"', _, toList_member m.1 m.2, by decide⟩
        have hRead := members?_renderMembers m members hMembers fuel rest
          (by omega)
        have hSkip := hOpens.skip_append ('}' :: rest)
        rcases hOpens with ⟨c, later, hText, _, _, hObject⟩
        rw [hText] at hRead hSkip ⊢
        simp only [List.cons_append, List.append_assoc, List.nil_append,
          value?] at hRead hSkip ⊢
        rw [hSkip]
        split
        · next heq => exact absurd (List.cons.inj heq).1 hObject
        · rw [hRead]
          simp [ofMembers, Table.rows_ofList hNames]

end Text

------------------------------------------------------------
-- Legible values
------------------------------------------------------------

/-
  A value whose text can be read back: its integers have 64
  bits, the texts of its real numbers read back, and the
  names of its members ascend.
-/
inductive Legible (number : Float → String) : Json → Prop where
  | null : Legible number null
  | bool {b : Bool} : Legible number (bool b)
  | int
      {n : Int}
      (hFits : Text.fitsWord n = true) :
      Legible number (int n)
  | real
      {x : Float}
      (hReads : Text.ReadsBack number x) :
      Legible number (real x)
  | str {s : String} : Legible number (str s)
  | arr
      {xs : List Json}
      (hElements : ∀ x ∈ xs, Legible number x) :
      Legible number (arr xs)
  | obj
      {members : List (String × Json)}
      (hNames : Ascending members)
      (hMembers : ∀ m ∈ members, Legible number m.2) :
      Legible number (obj members)

/- A legible value is recovered, by the rule for its form. -/
theorem Legible.recovers
    {number : Float → String}
    {j : Json}
    (hLegible : Legible number j) :
    Text.Recovers number j := by
  induction hLegible with
  | null => exact Text.recovers_null
  | bool => exact Text.recovers_bool _
  | int hFits =>
      exact Text.recovers_of_number
        (by rw [renderWith, Text.number?_toString hFits])
  | real hReads => exact Text.recovers_of_number (by rwa [renderWith])
  | str => exact Text.recovers_str _
  | arr _ ih => exact Text.recovers_arr ih
  | obj hNames _ ih => exact Text.recovers_obj hNames ih

/- A legible value is read back from its text. -/
theorem parse?_renderWith
    {number : Float → String}
    {j : Json}
    (hLegible : Legible number j) :
    parse? (j.renderWith number) = some j := by
  have hSkip := hLegible.recovers.opens.skip_append []
  have hValue := hLegible.recovers.value
    (2 * (j.renderWith number).toList.length + 2) [] (by omega)
    Text.closes_nil
  rw [List.append_nil] at hSkip hValue
  simp only [parse?, hSkip, hValue, Option.bind_eq_bind, Option.bind_some]
  rfl

namespace Legible

variable
  {number : Float → String}
  {members : List (String × Json)}

/- An object is legible if the values of its members are. -/
theorem ofMembers
    (hMembers : ∀ m ∈ members, Legible number m.2) :
    Legible number (ofMembers members) :=
  .obj (Table.ofList members).ascending fun m hm =>
    hMembers m (Table.mem_of_mem_ofList hm)

theorem nil :
    ∀ m ∈ ([] : List (String × Json)), Legible number m.2 := by
  simp

theorem cons
    {name : String}
    {x : Json}
    (hFirst : Legible number x)
    (hMembers : ∀ m ∈ members, Legible number m.2) :
    ∀ m ∈ (name, x) :: members, Legible number m.2 :=
  List.forall_mem_cons.2 ⟨hFirst, hMembers⟩

end Legible

end Json

end QuantumLab
