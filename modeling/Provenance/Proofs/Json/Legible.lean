import Mathlib.Data.List.Basic
import Provenance.Json

/-!
A layout can be read in only one way. Every character of a quoted text is read back from what is
written for it, and no other quote stands inside; the digits of a number end where something else
follows; and the members of arrays and objects are told apart by the comma or the line break behind
them. So two values with the same layout are the same, whatever texts, numbers and fields they hold.
-/
namespace Provenance

namespace Text

/-- What follows a number does not go on with it. -/
def EndsNumber (t : Text) : Prop :=
  ∀ c ∈ t.head?, c.isDigit = false

theorem endsNumber_nil : EndsNumber [] := by
  intro c hc
  cases hc

theorem endsNumber_cons {c : Char} (h : c.isDigit = false) (t : Text) : EndsNumber (c :: t) := by
  intro d hd
  rw [List.head?_cons, Option.mem_def, Option.some.injEq] at hd
  exact hd ▸ h

theorem isDigit_of_mem_ofNat {n : Nat} {c : Char} (h : c ∈ ofNat n) : c.isDigit = true :=
  Nat.isDigit_of_mem_toDigits (by decide) (by decide) h

theorem ofNat_injective : Function.Injective ofNat := by
  intro m n h
  have hdigits : Nat.toDigits 10 m = Nat.toDigits 10 n := h
  calc
    m = Nat.ofDigitChars 10 (Nat.toDigits 10 m) 0 := Nat.ofDigitChars_ten_toDigits.symm
    _ = Nat.ofDigitChars 10 (Nat.toDigits 10 n) 0 := by rw [hdigits]
    _ = n := Nat.ofDigitChars_ten_toDigits

/-- The digits of a number are all that stands in front of what ends it. -/
theorem takeWhile_ofNat_append (n : Nat) {t : Text} (h : EndsNumber t) :
    (ofNat n ++ t).takeWhile Char.isDigit = ofNat n := by
  have hend : t.takeWhile Char.isDigit = [] := by
    cases t with
    | nil => rfl
    | cons c t =>
      have hc : ¬c.isDigit = true := Bool.eq_false_iff.mp (h c rfl)
      exact List.takeWhile_cons_of_neg hc
  rw [List.takeWhile_append_of_pos fun c hc => isDigit_of_mem_ofNat hc, hend, List.append_nil]

end Text

namespace Json

open Text

/-- The value of a digit in base sixteen. -/
def hexValue (c : Char) : Nat :=
  if c.isDigit then c.toNat - '0'.toNat else c.toNat - 'a'.toNat + 10

theorem hexValue_hexDigit (n : Nat) : hexValue (hexDigit n) = n % 16 := by
  have hdigits : ∀ digit < 16, hexValue (Nat.digitChar digit) = digit := by decide
  exact hdigits _ (Nat.mod_lt _ (by decide))

/-- Reads one character of a quoted text, as it was before it was escaped. -/
def unescape? : Text → Option (Char × Text)
  | '\\' :: 'n' :: t => some ('\n', t)
  | '\\' :: 'r' :: t => some ('\r', t)
  | '\\' :: 't' :: t => some ('\t', t)
  | '\\' :: 'b' :: t => some (Char.ofNat 8, t)
  | '\\' :: 'f' :: t => some (Char.ofNat 12, t)
  | '\\' :: 'u' :: '0' :: '0' :: high :: low :: t =>
    some (Char.ofNat (16 * hexValue high + hexValue low), t)
  | '\\' :: c :: t => some (c, t)
  | c :: t => some (c, t)
  | [] => none

/-- Every character is read back, whatever follows it. -/
theorem unescape?_escape (c : Char) (t : Text) : unescape? (escape c ++ t) = some (c, t) := by
  have hchar : Char.ofNat c.toNat = c := Char.ofNat_toNat c
  unfold escape
  split
  · next h => rw [h]; rfl
  split
  · next h => rw [h]; rfl
  split
  · next h => rw [h]; rfl
  split
  · next h => rw [h]; rfl
  split
  · next h => rw [h]; rfl
  split
  · next h => rw [← hchar, h]; rfl
  split
  · next h => rw [← hchar, h]; rfl
  split
  · next h =>
    have hread : unescape? ("\\u00".toList ++ [hexDigit (c.toNat / 16), hexDigit c.toNat] ++ t) =
        some (Char.ofNat (16 * hexValue (hexDigit (c.toNat / 16)) + hexValue (hexDigit c.toNat)),
          t) := rfl
    have hvalue : 16 * (c.toNat / 16 % 16) + c.toNat % 16 = c.toNat := by omega
    rw [hread, hexValue_hexDigit, hexValue_hexDigit, hvalue, hchar]
  · next hquote hslash _ _ _ _ _ _ =>
    rw [List.singleton_append, unescape?.eq_def]
    split <;> simp_all

theorem escape_append_inj {c d : Char} {s t : Text} (h : escape c ++ s = escape d ++ t) :
    c = d ∧ s = t := by
  have hread := unescape?_escape c s
  rw [h, unescape?_escape] at hread
  have hpair := Option.some.inj hread
  exact ⟨(congrArg Prod.fst hpair).symm, (congrArg Prod.snd hpair).symm⟩

/-- A quote inside a text does not stand there as such, so it cannot be taken for the end. -/
theorem escape_append_ne_quote (c : Char) (s t : Text) : escape c ++ s ≠ '"' :: t := by
  intro h
  unfold escape at h
  split at h
  · cases h
  repeat
    split at h
    · cases h
  next hquote _ _ _ _ _ _ _ => exact hquote (List.cons.inj h).1

theorem quote_append_inj {t u s s' : Text} (h : quote t ++ s = quote u ++ s') :
    t = u ∧ s = s' := by
  have hinner : t.flatMap escape ++ '"' :: s = u.flatMap escape ++ '"' :: s' := by
    simpa [quote] using h
  clear h
  induction t generalizing u with
  | nil =>
    cases u with
    | nil => exact ⟨rfl, (List.cons.inj hinner).2⟩
    | cons d u =>
      rw [List.flatMap_cons, List.append_assoc] at hinner
      exact absurd hinner.symm (escape_append_ne_quote d _ s)
  | cons c t ih =>
    rw [List.flatMap_cons, List.append_assoc] at hinner
    cases u with
    | nil => exact absurd hinner (escape_append_ne_quote c _ s')
    | cons d u =>
      rw [List.flatMap_cons, List.append_assoc] at hinner
      obtain ⟨rfl, hrest⟩ := escape_append_inj hinner
      obtain ⟨rfl, hend⟩ := ih hrest
      exact ⟨rfl, hend⟩

theorem ofNat_append_inj {m n : Nat} {s t : Text} (hs : EndsNumber s) (ht : EndsNumber t)
    (h : ofNat m ++ s = ofNat n ++ t) : m = n ∧ s = t := by
  have hdigits := congrArg (List.takeWhile Char.isDigit) h
  rw [takeWhile_ofNat_append m hs, takeWhile_ofNat_append n ht] at hdigits
  refine ⟨ofNat_injective hdigits, ?_⟩
  rw [hdigits] at h
  exact List.append_cancel_left h

/-- Nothing else is read where `a` has been written, as long as what follows ends a number. -/
def Legible {α : Type} (write : α → Text) (a : α) : Prop :=
  ∀ b s t, EndsNumber s → EndsNumber t → write a ++ s = write b ++ t → a = b ∧ s = t

section

variable {α : Type} {write : α → Text} {level : Nat} {opening closing : Char}

/-- The members behind the first one, each with a comma in front, and the closing bracket. -/
def laterMembers (closing : Char) (level : Nat) (members : List Text) : Text :=
  members.flatMap (fun member => ',' :: breakAt (level + 1) ++ member) ++ breakAt level ++ [closing]

theorem bracket_cons (opening closing : Char) (level : Nat) (first : Text) (members : List Text) :
    bracket opening closing level (first :: members) =
      opening :: breakAt (level + 1) ++ first ++ laterMembers closing level members := by
  have hjoined : ∀ front : Text,
      joinWith [','] (front :: members.map (breakAt (level + 1) ++ ·)) =
        front ++ members.flatMap fun member => ',' :: breakAt (level + 1) ++ member := by
    induction members with
    | nil => exact fun front => (List.append_nil front).symm
    | cons second members ih =>
      intro front
      rw [List.map_cons, joinWith, ih, List.flatMap_cons]
      · simp
      · exact List.cons_ne_nil _ _
  rw [bracket]
  · rw [List.map_cons, hjoined, laterMembers]
    simp
  · exact List.cons_ne_nil _ _

theorem endsNumber_laterMembers (closing : Char) (level : Nat) (members : List Text) (t : Text) :
    EndsNumber (laterMembers closing level members ++ t) := by
  cases members with
  | nil => exact endsNumber_cons rfl _
  | cons member members => exact endsNumber_cons rfl _

theorem laterMembers_append_inj {values values' : List α}
    (hvalues : ∀ value ∈ values, Legible write value) {s t : Text}
    (h : laterMembers closing level (values.map write) ++ s =
      laterMembers closing level (values'.map write) ++ t) : values = values' ∧ s = t := by
  induction values generalizing values' with
  | nil =>
    cases values' with
    | nil => exact ⟨rfl, List.append_cancel_left h⟩
    | cons first' values' => cases (List.cons.inj h).1
  | cons first values ih =>
    cases values' with
    | nil => cases (List.cons.inj h).1
    | cons first' values' =>
      have hfirst : write first ++ (laterMembers closing level (values.map write) ++ s) =
          write first' ++ (laterMembers closing level (values'.map write) ++ t) := by
        simpa [laterMembers] using h
      obtain ⟨rfl, hrest⟩ := hvalues first List.mem_cons_self first' _ _
        (endsNumber_laterMembers _ _ _ _) (endsNumber_laterMembers _ _ _ _) hfirst
      obtain ⟨rfl, hend⟩ :=
        ih (fun value hvalue => hvalues value (List.mem_cons_of_mem _ hvalue)) hrest
      exact ⟨rfl, hend⟩

/-- Members that are legible are legible together between brackets. -/
theorem legible_bracket (hclosing : closing ≠ '\n') {values : List α}
    (hvalues : ∀ value ∈ values, Legible write value) :
    Legible (fun values => bracket opening closing level (values.map write)) values := by
  intro values' s t _ _ h
  cases values with
  | nil =>
    cases values' with
    | nil => exact ⟨rfl, List.append_cancel_left h⟩
    | cons first' values' =>
      simp only [List.map_cons, bracket_cons] at h
      exact absurd (List.cons.inj (List.cons.inj h).2).1 hclosing
  | cons first values =>
    cases values' with
    | nil =>
      simp only [List.map_cons, bracket_cons] at h
      exact absurd (List.cons.inj (List.cons.inj h).2).1.symm hclosing
    | cons first' values' =>
      -- Behind the bracket the members stand as later members do, the first comma apart.
      have hmembers : laterMembers closing level ((first :: values).map write) ++ s =
          laterMembers closing level ((first' :: values').map write) ++ t := by
        simpa [bracket_cons, laterMembers] using h
      exact laterMembers_append_inj hvalues hmembers

end

theorem layoutAll_eq (level : Nat) (values : List Json) :
    layoutAll level values = values.map (layout level) := by
  induction values with
  | nil => rfl
  | cons value values ih => rw [layoutAll, ih, List.map_cons]

theorem layoutFields_eq (level : Nat) (fields : List (Text × Json)) :
    layoutFields level fields = fields.map (layoutField level) := by
  induction fields with
  | nil => rfl
  | cons field fields ih => rw [layoutFields, ih, List.map_cons]

/-- Induction on a value, with what is known of every member of an array and of every field. -/
theorem induct {motive : Json → Prop} (text : ∀ t, motive (.text t))
    (number : ∀ n, motive (.number n))
    (array : ∀ values, (∀ value ∈ values, motive value) → motive (.array values))
    (object : ∀ fields, (∀ field ∈ fields, motive field.2) → motive (.object fields))
    (value : Json) : motive value := by
  refine Json.rec (motive_1 := motive) (motive_2 := fun values => ∀ value ∈ values, motive value)
    (motive_3 := fun fields => ∀ field ∈ fields, motive field.2)
    (motive_4 := fun field => motive field.2) text number array object ?_ ?_ ?_ ?_ ?_ value
  · exact nofun
  · exact fun _ _ hfirst hvalues => List.forall_mem_cons.mpr ⟨hfirst, hvalues⟩
  · exact nofun
  · exact fun _ _ hfirst hfields => List.forall_mem_cons.mpr ⟨hfirst, hfields⟩
  · exact fun _ _ hvalue => hvalue

/-- The character that only values of one form begin with; a number has none of its own. -/
def mark : Json → Option Char
  | .text _ => some '"'
  | .number _ => none
  | .array _ => some '['
  | .object _ => some '\x7b'

theorem exists_layout_eq (level : Nat) (value : Json) :
    ∃ c t, layout level value = c :: t ∧ value.mark = if c.isDigit then none else some c := by
  cases value with
  | text t => exact ⟨_, _, rfl, rfl⟩
  | number n =>
    obtain ⟨c, t, hdigits⟩ := List.exists_cons_of_ne_nil (Nat.toDigits_ne_nil (b := 10) (n := n))
    have hdigit : c.isDigit = true :=
      Nat.isDigit_of_mem_toDigits (by decide) (by decide) (hdigits ▸ List.mem_cons_self)
    exact ⟨c, t, hdigits, (if_pos hdigit).symm⟩
  | array values =>
    cases values with
    | nil => exact ⟨_, _, rfl, rfl⟩
    | cons value values => exact ⟨_, _, rfl, rfl⟩
  | object fields =>
    cases fields with
    | nil => exact ⟨_, _, rfl, rfl⟩
    | cons field fields => exact ⟨_, _, rfl, rfl⟩

theorem mark_eq_of_layout_append {level : Nat} {value value' : Json} {s t : Text}
    (h : layout level value ++ s = layout level value' ++ t) : value.mark = value'.mark := by
  obtain ⟨c, rest, hlayout, hmark⟩ := exists_layout_eq level value
  obtain ⟨c', rest', hlayout', hmark'⟩ := exists_layout_eq level value'
  rw [hlayout, hlayout'] at h
  rw [hmark, hmark', (List.cons.inj h).1]

theorem legible_layoutField {level : Nat} {field : Text × Json}
    (h : Legible (layout level) field.2) : Legible (layoutField level) field := by
  obtain ⟨name, value⟩ := field
  rintro ⟨name', value'⟩ s t hs ht heq
  simp only [layoutField, List.append_assoc] at heq
  obtain ⟨rfl, hrest⟩ := quote_append_inj heq
  obtain ⟨rfl, hend⟩ := h value' s t hs ht (List.append_cancel_left hrest)
  exact ⟨rfl, hend⟩

/-- A value is told from its layout, at every level and in front of everything that may follow it. -/
theorem legible_layout (level : Nat) (value : Json) : Legible (layout level) value := by
  induction value using induct generalizing level with
  | text t =>
    intro value' s s' _ _ h
    have hmark := mark_eq_of_layout_append h
    cases value' with
    | text u =>
      obtain ⟨rfl, hend⟩ := quote_append_inj h
      exact ⟨rfl, hend⟩
    | number n => cases hmark
    | array values => cases hmark
    | object fields => cases hmark
  | number n =>
    intro value' s s' hs hs' h
    have hmark := mark_eq_of_layout_append h
    cases value' with
    | number m =>
      obtain ⟨rfl, hend⟩ := ofNat_append_inj hs hs' h
      exact ⟨rfl, hend⟩
    | text t => cases hmark
    | array values => cases hmark
    | object fields => cases hmark
  | array values ih =>
    intro value' s s' hs hs' h
    have hmark := mark_eq_of_layout_append h
    cases value' with
    | array values' =>
      rw [layout, layout, layoutAll_eq, layoutAll_eq] at h
      obtain ⟨rfl, hend⟩ := legible_bracket (by decide)
        (fun value hvalue => ih value hvalue (level + 1)) values' s s' hs hs' h
      exact ⟨rfl, hend⟩
    | text t => cases hmark
    | number n => cases hmark
    | object fields => cases hmark
  | object fields ih =>
    intro value' s s' hs hs' h
    have hmark := mark_eq_of_layout_append h
    cases value' with
    | object fields' =>
      rw [layout, layout, layoutFields_eq, layoutFields_eq] at h
      obtain ⟨rfl, hend⟩ := legible_bracket (by decide)
        (fun field hfield => legible_layoutField (ih field hfield (level + 1))) fields' s s' hs hs' h
      exact ⟨rfl, hend⟩
    | text t => cases hmark
    | number n => cases hmark
    | array values => cases hmark

/-- Documents with the same text hold the same value. -/
theorem pretty_injective : Function.Injective pretty := by
  intro value value' h
  have happend : layout 0 value ++ [] = layout 0 value' ++ [] := congrArg (· ++ []) h
  exact (legible_layout 0 value value' [] [] endsNumber_nil endsNumber_nil happend).1

end Json

end Provenance
