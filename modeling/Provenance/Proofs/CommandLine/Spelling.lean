import Provenance.CommandLine.Arguments
import Provenance.Text.Utf8.RoundTrip

/-!
How an invocation is spelled. Arguments that are accepted spell a row of items: paths, flags, and
options whose value stands in the same argument or in the next one. The invocation holds what the items
say, the paths and the patterns in their order, and nothing else.
-/
namespace Provenance.CommandLine

/-- One thing that arguments ask for. -/
inductive Item
  | path (p : Path)
  | all
  | json
  | exclude (pattern : Text)
  | timeout (seconds : Nat)
  | completions (shell : Shell)
deriving DecidableEq

namespace Item

@[simp] def path? : Item → Option Path
  | path p => some p
  | _ => none

@[simp] def pattern? : Item → Option Text
  | exclude pattern => some pattern
  | _ => none

@[simp] def seconds? : Item → Option Nat
  | timeout seconds => some seconds
  | _ => none

@[simp] def shell? : Item → Option Shell
  | completions shell => some shell
  | _ => none

end Item

namespace Invocation

/-- What an invocation holds after some more items. -/
def adding (i : Invocation) (items : List Item) : Invocation where
  paths := i.paths ++ items.filterMap Item.path?
  all := i.all || items.contains .all
  json := i.json || items.contains .json
  patterns := i.patterns ++ items.filterMap Item.pattern?
  timeout := i.timeout.or (items.findSome? Item.seconds?)
  completions := i.completions.or (items.findSome? Item.shell?)

theorem adding_nil (i : Invocation) : i.adding [] = i := by
  simp [adding]

theorem adding_append (i : Invocation) (items more : List Item) :
    i.adding (items ++ more) = (i.adding items).adding more := by
  simp [adding, Option.or_assoc, Bool.or_assoc]

theorem adding_cons (i : Invocation) (item : Item) (items : List Item) :
    i.adding (item :: items) = (i.adding [item]).adding items :=
  adding_append i [item] items

end Invocation

/-- What the value of an option asks for. -/
inductive Asks : ValueOption → Bytes → Item → Prop
  | exclude (pattern : Text) : Asks .exclude (Utf8.encode pattern) (.exclude pattern)
  | timeout {value : Bytes} {seconds : Nat} (h : number? (Utf8.decode value) = some seconds) :
      Asks .timeout value (.timeout seconds)
  | completions (shell : Shell) :
      Asks .completions (Utf8.encode shell.name) (.completions shell)

/-- The argument of this name, behind two dashes. -/
def option (name : Text) : Bytes :=
  Utf8.encode ("--".toList ++ name)

/-- The name of an option that takes a value. -/
def ValueOption.name : ValueOption → Text
  | exclude => "exclude".toList
  | timeout => "timeout".toList
  | completions => "completions".toList

/-- The name of an option. -/
def LongOption.name : LongOption → Text
  | help => "help".toList
  | version => "version".toList
  | all => "all".toList
  | json => "json".toList
  | valued o => o.name

/-- A dash alone, or what does not begin with a dash. -/
def IsPlain (argument : Bytes) : Prop :=
  argument = [0x2D] ∨ argument.head? ≠ some 0x2D

/-- Arguments and the items that they spell, both from left to right. -/
inductive Spells : List Bytes → List Item → Prop
  | nothing : Spells [] []
  | path {argument : Bytes} {rest : List Bytes} {items : List Item} (hplain : IsPlain argument)
      (hne : argument ≠ []) (h : Spells rest items) :
      Spells (argument :: rest) (.path ⟨argument⟩ :: items)
  | all {rest : List Bytes} {items : List Item} (h : Spells rest items) :
      Spells (option "all".toList :: rest) (.all :: items)
  | json {rest : List Bytes} {items : List Item} (h : Spells rest items) :
      Spells (option "json".toList :: rest) (.json :: items)
  /-- The value in the next argument. -/
  | apart {o : ValueOption} {value : Bytes} {item : Item} {rest : List Bytes} {items : List Item}
      (hvalue : Asks o value item) (hplain : IsPlain value) (h : Spells rest items) :
      Spells (option o.name :: value :: rest) (item :: items)
  /-- The value behind an equals sign. -/
  | joined {o : ValueOption} {value : Bytes} {item : Item} {rest : List Bytes} {items : List Item}
      (hvalue : Asks o value item) (h : Spells rest items) :
      Spells ((option o.name ++ 0x3D :: value) :: rest) (item :: items)
  /-- Behind two dashes alone, nothing but paths. -/
  | paths {rest : List Bytes} (h : ∀ argument ∈ rest, argument ≠ []) :
      Spells ([0x2D, 0x2D] :: rest) (rest.map fun argument => .path ⟨argument⟩)

/-- What comes to a result has come to one on the way. -/
theorem exists_of_bind_eq_ok {ε α β : Type} {first : Except ε α} {next : α → Except ε β} {b : β}
    (h : first >>= next = .ok b) : ∃ a, first = .ok a ∧ next a = .ok b := by
  cases first with
  | error e => cases h
  | ok a => exact ⟨a, rfl, h⟩

theorem isPlain_of_path {argument : Bytes} (h : Form.of argument = .path) : IsPlain argument := by
  cases argument with
  | nil => exact Or.inr nofun
  | cons b rest =>
    by_cases hb : b = 0x2D
    · subst hb
      cases rest with
      | nil => exact Or.inl rfl
      | cons c rest =>
        unfold Form.of at h
        split at h <;> simp_all
    · exact Or.inr fun hhead => hb (Option.some.inj hhead)

theorem eq_of_endOfOptions {argument : Bytes} (h : Form.of argument = .endOfOptions) :
    argument = [0x2D, 0x2D] := by
  unfold Form.of at h
  split at h <;> simp_all

/-- The name and the value of a long option are what it is made of. -/
theorem eq_of_long {argument name : Bytes} {value : Option Bytes}
    (h : Form.of argument = .long name value) :
    argument = 0x2D :: 0x2D :: name ++ (value.map (0x3D :: ·)).getD [] := by
  unfold Form.of at h
  split at h
  · cases h
  · next rest _ =>
    cases h
    have hsplit := List.takeWhile_append_dropWhile (p := (· != 0x3D)) (l := rest)
    cases hdrop : rest.dropWhile (· != 0x3D) with
    | nil =>
      rw [hdrop, List.append_nil] at hsplit
      simp [hsplit]
    | cons b after =>
      have hb : b = 0x3D := by
        have hhead := List.head?_dropWhile_not (· != 0x3D) rest
        rw [hdrop] at hhead
        simpa using hhead
      rw [hdrop] at hsplit
      subst hb
      simp [hsplit]
  · cases h
  · cases h

theorem eq_of_ofName? {name : Bytes} {o : LongOption} (h : LongOption.ofName? name = some o) :
    name = Utf8.encode o.name := by
  rw [LongOption.ofName?, Option.map_eq_some_iff] at h
  obtain ⟨⟨t, o'⟩, hfind, rfl⟩ := h
  have hname := List.find?_some (p := fun entry : Text × LongOption =>
    Utf8.encode entry.1 == name) hfind
  have htable : ∀ entry ∈ LongOption.table, entry.1 = entry.2.name := by decide
  have ht := htable _ (List.mem_of_find?_eq_some hfind)
  rw [← ht]
  exact (beq_iff_eq.mp hname).symm

theorem eq_of_shell_ofName? {value : Bytes} {shell : Shell} (h : Shell.ofName? value = some shell) :
    value = Utf8.encode shell.name := by
  have hname := List.find?_some (p := fun shell : Shell => Utf8.encode shell.name == value) h
  exact (beq_iff_eq.mp hname).symm

theorem asks_of_takeValue {i j : Invocation} {o : ValueOption} {value : Bytes}
    (h : takeValue i o value = .ok j) : ∃ item, Asks o value item ∧ j = i.adding [item] := by
  cases o with
  | exclude =>
    simp only [takeValue] at h
    split at h
    · next hvalid =>
      cases h
      have hvalue : Utf8.encode (Utf8.decode value) = value := beq_iff_eq.mp hvalid
      have hasks := Asks.exclude (Utf8.decode value)
      rw [hvalue] at hasks
      exact ⟨_, hasks, by simp [Invocation.adding]⟩
    · cases h
  | timeout =>
    simp only [takeValue] at h
    split at h
    · cases h
    · next hnone =>
      split at h
      · next seconds hseconds =>
        cases h
        rw [Option.not_isSome_iff_eq_none] at hnone
        exact ⟨_, .timeout hseconds, by simp [Invocation.adding, hnone]⟩
      · cases h
  | completions =>
    simp only [takeValue] at h
    split at h
    · cases h
    · next hnone =>
      split at h
      · next shell hshell =>
        cases h
        rw [Option.not_isSome_iff_eq_none] at hnone
        rw [eq_of_shell_ofName? hshell]
        exact ⟨_, .completions shell, by simp [Invocation.adding, hnone]⟩
      · cases h

theorem adding_of_takePath {i j : Invocation} {argument : Bytes}
    (h : takePath i argument = .ok j) : argument ≠ [] ∧ j = i.adding [.path ⟨argument⟩] := by
  rw [takePath] at h
  split at h
  · cases h
  · next hne =>
    cases h
    exact ⟨hne, by simp [Invocation.adding]⟩

/-- What a long option does: it is an item by itself, or leaves its value to the next argument. -/
theorem spells_of_takeLong {i j : Invocation} {argument name : Bytes}
    {value : Option Bytes} {waiting : Option ValueOption} (hform : Form.of argument = .long name value)
    (h : takeLong i argument name value = .ok (j, waiting)) :
    (∃ item, waiting = none ∧ j = i.adding [item] ∧ ∀ rest items, Spells rest items →
      Spells (argument :: rest) (item :: items)) ∨
    ∃ o, waiting = some o ∧ j = i ∧ argument = option o.name := by
  have hargument := eq_of_long hform
  unfold takeLong at h
  split at h
  · cases h
  · cases h
  · next hname =>
    rw [eq_of_ofName? hname] at hargument
    split at h
    · cases h
    · cases h
      subst hargument
      exact Or.inl ⟨.all, rfl, by simp [Invocation.adding], fun _ _ hrest => .all hrest⟩
  · next hname =>
    rw [eq_of_ofName? hname] at hargument
    split at h
    · cases h
    · cases h
      subst hargument
      exact Or.inl ⟨.json, rfl, by simp [Invocation.adding], fun _ _ hrest => .json hrest⟩
  · next o hname =>
    rw [eq_of_ofName? hname] at hargument
    cases h
    exact Or.inr ⟨o, rfl, rfl, hargument.trans (List.append_nil _)⟩
  · next o text hname =>
    rw [eq_of_ofName? hname] at hargument
    obtain ⟨taken, hvalue, htaken⟩ := exists_of_bind_eq_ok h
    cases htaken
    obtain ⟨item, hasks, hadding⟩ := asks_of_takeValue hvalue
    subst hargument
    exact Or.inl ⟨item, rfl, hadding, fun _ _ hrest => .joined hasks hrest⟩
  · cases h

/-- What the arguments that are left spell, if an option still waits for its value. -/
def SpellsAfter : Option ValueOption → List Bytes → List Item → Prop
  | none, arguments, items => Spells arguments items
  | some o, arguments, items => ∃ value rest item others, arguments = value :: rest ∧
    items = item :: others ∧ Asks o value item ∧ IsPlain value ∧ Spells rest others

theorem adding_of_pathsOnly {i j : Invocation} {arguments : List Bytes}
    (h : readFrom i none true arguments = .ok j) : (∀ argument ∈ arguments, argument ≠ []) ∧
      j = i.adding (arguments.map fun argument => .path ⟨argument⟩) := by
  induction arguments generalizing i with
  | nil =>
    cases h
    exact ⟨nofun, j.adding_nil.symm⟩
  | cons argument rest ih =>
    unfold readFrom at h
    rw [if_pos rfl] at h
    obtain ⟨taken, htake, hread⟩ := exists_of_bind_eq_ok h
    obtain ⟨hne, rfl⟩ := adding_of_takePath htake
    obtain ⟨hrest, rfl⟩ := ih hread
    exact ⟨List.forall_mem_cons.mpr ⟨hne, hrest⟩, (i.adding_cons _ _).symm⟩

/-- The arguments that are left spell all that is added to an invocation. -/
theorem spells_of_readFrom {i j : Invocation} {waiting : Option ValueOption}
    {arguments : List Bytes} (h : readFrom i waiting false arguments = .ok j) :
    ∃ items, SpellsAfter waiting arguments items ∧ j = i.adding items := by
  induction arguments generalizing i waiting with
  | nil =>
    cases waiting with
    | none =>
      cases h
      exact ⟨[], .nothing, j.adding_nil.symm⟩
    | some o => cases h
  | cons argument rest ih =>
    unfold readFrom at h
    rw [if_neg Bool.false_ne_true] at h
    split at h
    · next o hform =>
      obtain ⟨taken, htake, hread⟩ := exists_of_bind_eq_ok h
      obtain ⟨item, hasks, rfl⟩ := asks_of_takeValue htake
      obtain ⟨items, hspells, rfl⟩ := ih hread
      exact ⟨item :: items, ⟨argument, rest, item, items, rfl, rfl, hasks,
        isPlain_of_path hform, hspells⟩, (i.adding_cons _ _).symm⟩
    · cases h
    · next hform =>
      obtain ⟨taken, htake, hread⟩ := exists_of_bind_eq_ok h
      obtain ⟨hne, rfl⟩ := adding_of_takePath htake
      obtain ⟨items, hspells, rfl⟩ := ih hread
      exact ⟨_, .path (isPlain_of_path hform) hne hspells, (i.adding_cons _ _).symm⟩
    · next hform =>
      obtain ⟨hrest, rfl⟩ := adding_of_pathsOnly h
      rw [eq_of_endOfOptions hform]
      exact ⟨_, .paths hrest, rfl⟩
    · next name value hform =>
      obtain ⟨⟨taken, waiting⟩, htake, hread⟩ := exists_of_bind_eq_ok h
      rcases spells_of_takeLong hform htake with ⟨item, rfl, rfl, hitem⟩ | ⟨o, rfl, rfl, rfl⟩
      · obtain ⟨items, hspells, rfl⟩ := ih hread
        exact ⟨item :: items, hitem rest items hspells, (i.adding_cons _ _).symm⟩
      · obtain ⟨items, ⟨value, others, item, items', rfl, rfl, hasks, hplain, hspells⟩, rfl⟩ :=
          ih hread
        exact ⟨_, .apart hasks hplain hspells, rfl⟩
    · split at h
      · cases h
      · cases h
      · cases h

/-- Arguments that are accepted spell the invocation that they are read as. -/
theorem spells_of_read {arguments : List Bytes} {i : Invocation} (h : read arguments = .ok i) :
    ∃ items, Spells arguments items ∧ i = Invocation.none.adding items :=
  spells_of_readFrom h

end Provenance.CommandLine
