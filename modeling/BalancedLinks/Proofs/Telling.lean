import BalancedLinks.Raised
import Mathlib.Tactic.Common

/-!
# Which raised values have a message

A raised value is written in JSON, and what cannot be written is turned into text piece by piece. Each of the two
goes down into the value by its own rules, so each has its own values to fail on: `Blocked` and `Mute` say, by the
constructors of values, where a failure can sit. Nothing is tried behind the second attempt, so a value has a message
exactly if it is not both.

The main statement is `Value.message_defined_iff`.
-/

set_option autoImplicit false

namespace BalancedLinks

namespace Value

/-! ## Attempts that fail -/

section

variable {ε α β : Type}

/-- What is made of a result fails exactly if the result does. -/
theorem exists_error_map {f : α → β} {result : Except ε α} :
    (∃ fault, result.map f = .error fault) ↔ ∃ fault, result = .error fault := by
  cases result <;> simp [Except.map]

/-- Attempts in turn fail exactly if one of them does. -/
theorem exists_error_mapM {f : α → Except ε β} {l : List α} :
    (∃ fault, l.mapM f = .error fault) ↔ ∃ x ∈ l, ∃ fault, f x = .error fault := by
  induction l with
  | nil => simp [pure, Except.pure]
  | cons x l ih =>
    simp only [List.mapM_cons, List.mem_cons, exists_eq_or_imp, ← ih]
    cases f x with
    | error fault => simp [bind, Except.bind]
    | ok y =>
      cases l.mapM f with
      | error fault => simp [bind, Except.bind]
      | ok ys => simp [bind, Except.bind, pure, Except.pure]

end

/-! ## The fields of an object -/

section

variable {β : Type} {fields : List (String × β)} {key : String} {value : β}

/-- A field of an object has the value that it was last set to. -/
def HasField (fields : List (String × β)) (key : String) (value : β) : Prop :=
  ∃ before after, fields = before ++ (key, value) :: after ∧ ∀ field ∈ after, field.1 ≠ key

/-- A field that an object has is one of those it was given. -/
theorem HasField.mem (h : HasField fields key value) : (key, value) ∈ fields := by
  obtain ⟨before, after, rfl, -⟩ := h
  simp

/-- The last of the fields with one key is the one that an object has. -/
theorem hasField_cons {first : String × β} :
    HasField (first :: fields) key value ↔
      HasField fields key value ∨ first = (key, value) ∧ ∀ field ∈ fields, field.1 ≠ key := by
  constructor
  · rintro ⟨before, after, hsplit, hlast⟩
    cases before with
    | nil =>
      obtain ⟨rfl, rfl⟩ := List.cons.inj hsplit
      exact Or.inr ⟨rfl, hlast⟩
    | cons head before => exact Or.inl ⟨before, after, (List.cons.inj hsplit).2, hlast⟩
  · rintro (⟨before, after, rfl, hlast⟩ | ⟨rfl, hlast⟩)
    · exact ⟨first :: before, after, rfl, hlast⟩
    · exact ⟨[], fields, rfl, hlast⟩

/-- Fields that are turned into others, key by key, keep the places in which they are set. -/
theorem hasField_map {γ : Type} {f : β → γ} {result : γ} :
    HasField (fields.map fun field => (field.1, f field.2)) key result ↔
      ∃ value, HasField fields key value ∧ f value = result := by
  induction fields with
  | nil => simp [HasField]
  | cons first fields ih =>
    obtain ⟨first, value⟩ := first
    simp only [List.map_cons, hasField_cons, ih, List.forall_mem_map, Prod.mk.injEq]
    grind

/-- Setting a field replaces the one of that key and leaves the others. -/
theorem mem_setField {key' : String} {value' : β} :
    (key, value) ∈ setField fields key' value' ↔
      key = key' ∧ value = value' ∨ key ≠ key' ∧ (key, value) ∈ fields := by
  unfold setField
  split_ifs with hset
  · rw [List.any_eq_true] at hset
    obtain ⟨old, hold, hkey⟩ := hset
    rw [List.mem_map]
    constructor
    · rintro ⟨field, hfield, heq⟩
      split_ifs at heq with hsame
      · cases heq
        exact Or.inl ⟨rfl, rfl⟩
      · subst heq
        exact Or.inr ⟨hsame, hfield⟩
    · rintro (⟨rfl, rfl⟩ | ⟨hother, hfield⟩)
      · exact ⟨old, hold, if_pos (of_decide_eq_true hkey)⟩
      · exact ⟨_, hfield, if_neg hother⟩
  · have hnone : ∀ field ∈ fields, field.1 ≠ key' := by
      intro field hfield hkey
      exact hset (List.any_eq_true.mpr ⟨field, hfield, decide_eq_true hkey⟩)
    rw [List.mem_append, List.mem_singleton, Prod.mk.injEq]
    constructor
    · rintro (hfield | hnew)
      · exact Or.inr ⟨hnone _ hfield, hfield⟩
      · exact Or.inl hnew
    · rintro (hnew | ⟨-, hfield⟩)
      · exact Or.inr hnew
      · exact Or.inl hfield

/-- Setting fields in turn leaves those that were there and are not set again. -/
theorem mem_foldl_setField {set : List (String × β)} :
    (key, value) ∈ fields.foldl (fun set field => setField set field.1 field.2) set ↔
      HasField fields key value ∨ (key, value) ∈ set ∧ ∀ field ∈ fields, field.1 ≠ key := by
  induction fields generalizing set with
  | nil => simp [HasField]
  | cons first fields ih =>
    rw [List.foldl_cons, ih, mem_setField, hasField_cons, List.forall_mem_cons, Prod.ext_iff]
    tauto

/-- Inserting by place adds one field. -/
theorem mem_insertByPlace {place : Nat} {field new : String × β} {placed : List (Nat × String × β)} :
    field ∈ (insertByPlace place new placed).map Prod.snd ↔ field = new ∨ field ∈ placed.map Prod.snd := by
  induction placed with
  | nil => simp [insertByPlace]
  | cons first rest ih =>
    unfold insertByPlace
    split_ifs
    · rw [List.map_cons, List.mem_cons]
    · rw [List.map_cons, List.mem_cons, ih, List.map_cons, List.mem_cons]
      exact or_left_comm

/-- The fields with a place are all inserted, and no other. -/
theorem mem_foldl_insertByPlace {placed : List (Nat × String × β)} {field : String × β} :
    field ∈ (fields.foldl (fun placed field =>
      match place? field.1 with
      | some place => insertByPlace place field placed
      | none => placed) placed).map Prod.snd ↔
      field ∈ fields ∧ (place? field.1).isSome ∨ field ∈ placed.map Prod.snd := by
  induction fields generalizing placed with
  | nil => simp
  | cons first fields ih =>
    rw [List.foldl_cons, ih, List.mem_cons]
    cases hplace : place? first.1 with
    | none =>
      have hother : (place? field.1).isSome → field ≠ first := by
        rintro hsome rfl
        rw [hplace] at hsome
        cases hsome
      tauto
    | some place =>
      have hsame : field = first → (place? field.1).isSome := by
        rintro rfl
        rw [hplace, Option.isSome_some]
      rw [mem_insertByPlace]
      tauto

/-- An object has each of its fields with the value that it was last set to. -/
theorem mem_ordered : (key, value) ∈ ordered fields ↔ HasField fields key value := by
  have hset : (key, value) ∈ fields.foldl (fun set field => setField set field.1 field.2) [] ↔
      HasField fields key value := by
    simp [mem_foldl_setField]
  unfold ordered
  rw [List.mem_append, ← hset]
  refine (or_congr mem_foldl_insertByPlace List.mem_filter).trans ?_
  cases place? key <;> simp

end

/-! ## Where a value cannot be written -/

/-- The values that a value is built from. -/
def parts : Value → List Value
  | list items => items
  | cyclicList items => items
  | object fields => fields.map Prod.snd
  | cyclicObject fields => fields.map Prod.snd
  | _ => []

/-- A part is smaller than the whole. -/
theorem sizeOf_lt_of_mem_parts {v w : Value} (h : w ∈ v.parts) : sizeOf w < sizeOf v := by
  have hitem : ∀ items : List Value, w ∈ items → sizeOf w < 1 + sizeOf items := by
    intro items hw
    have := List.sizeOf_lt_of_mem hw
    omega
  have hfield : ∀ fields : List (String × Value), w ∈ fields.map Prod.snd → sizeOf w < 1 + sizeOf fields := by
    intro fields hw
    obtain ⟨⟨key, value⟩, hfield, rfl⟩ := List.mem_map.mp hw
    have := List.sizeOf_lt_of_mem hfield
    simp only [Prod.mk.sizeOf_spec] at this
    show sizeOf value < _
    omega
  cases v with
  | list items =>
    rw [list.sizeOf_spec]
    exact hitem items h
  | cyclicList items =>
    rw [cyclicList.sizeOf_spec]
    exact hitem items h
  | object fields =>
    rw [object.sizeOf_spec]
    exact hfield fields h
  | cyclicObject fields =>
    rw [cyclicObject.sizeOf_spec]
    exact hfield fields h
  | _ => cases h

/-- A property holds of every value once it is inherited from the parts. -/
@[elab_as_elim]
theorem parts_induction {P : Value → Prop} (step : ∀ v, (∀ w ∈ v.parts, P w) → P v) (v : Value) : P v :=
  step v fun w _ => parts_induction step w
termination_by v
decreasing_by exact sizeOf_lt_of_mem_parts ‹_›

/-- What cannot be written in JSON: a big integer or a cycle is reached. -/
inductive Blocked : Value → Prop where
  | bigInteger (i : Int) : Blocked (.bigInteger i)
  | item {items : List Value} {v : Value} (hv : v ∈ items) (h : v.Blocked) : Blocked (.list items)
  | field {fields : List (String × Value)} {key : String} {v : Value} (hv : HasField fields key v)
      (h : v.Blocked) : Blocked (.object fields)
  | cyclicList (items : List Value) : Blocked (.cyclicList items)
  | cyclicObject (fields : List (String × Value)) : Blocked (.cyclicObject fields)

/-- A list is blocked exactly if an item is. -/
theorem blocked_list_iff {items : List Value} : (Value.list items).Blocked ↔ ∃ v ∈ items, v.Blocked := by
  constructor
  · intro h
    cases h with
    | item hv h => exact ⟨_, hv, h⟩
  · rintro ⟨v, hv, h⟩
    exact .item hv h

/-- An object is blocked exactly if a field that it has is. -/
theorem blocked_object_iff {fields : List (String × Value)} :
    (Value.object fields).Blocked ↔ ∃ key v, HasField fields key v ∧ v.Blocked := by
  constructor
  · intro h
    cases h with
    | field hv h => exact ⟨_, _, hv, h⟩
  · rintro ⟨key, v, hv, h⟩
    exact .field hv h

/-- All items are written alike. -/
theorem writeAll_eq (items : List Value) : writeAll items = items.map write := by
  induction items with
  | nil => rw [writeAll, List.map_nil]
  | cons item items ih => rw [writeAll, ih, List.map_cons]

/-- All fields are written alike. -/
theorem writeEach_eq (fields : List (String × Value)) :
    writeEach fields = fields.map fun field => (field.1, field.2.write) := by
  induction fields with
  | nil => rw [writeEach, List.map_nil]
  | cons field fields ih => rw [writeEach, ih, List.map_cons]

/-- Writing fails on exactly what is blocked. -/
theorem write_error_iff (v : Value) : (∃ fault, v.write = .error fault) ↔ v.Blocked := by
  induction v using parts_induction with
  | step v ih =>
    cases v with
    | bigInteger i => exact ⟨fun _ => .bigInteger i, fun _ => ⟨_, rfl⟩⟩
    | list items =>
      rw [write, writeItems, exists_error_map, exists_error_mapM, writeAll_eq, blocked_list_iff]
      simp only [List.mem_map, exists_exists_and_eq_and]
      exact exists_congr fun v => and_congr_right fun hv => ih v hv
    | object fields =>
      rw [write, writeFields, exists_error_map, exists_error_mapM, writeEach_eq, blocked_object_iff]
      have hpart : ∀ key v, HasField fields key v → v ∈ (object fields).parts :=
        fun key v hv => List.mem_map.mpr ⟨_, hv.mem, rfl⟩
      constructor
      · rintro ⟨⟨key, written⟩, hmem, hfault⟩
        rw [mem_ordered, hasField_map] at hmem
        obtain ⟨v, hv, rfl⟩ := hmem
        rw [exists_error_map] at hfault
        exact ⟨key, v, hv, (ih v (hpart key v hv)).mp hfault⟩
      · rintro ⟨key, v, hv, h⟩
        refine ⟨(key, v.write), mem_ordered.mpr (hasField_map.mpr ⟨v, hv, rfl⟩), ?_⟩
        rw [exists_error_map]
        exact (ih v (hpart key v hv)).mpr h
    | cyclicList items => exact ⟨fun _ => .cyclicList items, fun _ => ⟨_, rfl⟩⟩
    | cyclicObject fields => exact ⟨fun _ => .cyclicObject fields, fun _ => ⟨_, rfl⟩⟩
    | _ =>
      constructor
      · rintro ⟨_, hfault⟩
        cases hfault
      · rintro ⟨⟩

/-! ## Where a value cannot be turned into text -/

/-- What cannot be turned into text: a symbol, a list of such, and an object with a field in the place of its text. -/
inductive Mute : Value → Prop where
  | symbol (description : String) : Mute (.symbol description)
  | item {items : List Value} {v : Value} (hv : v ∈ items) (h : v.Mute) : Mute (.list items)
  | cyclicItem {items : List Value} {v : Value} (hv : v ∈ items) (h : v.Mute) : Mute (.cyclicList items)
  | object {fields : List (String × Value)} {v : Value} (hv : ("toString", v) ∈ fields) : Mute (.object fields)
  | cyclicObject {fields : List (String × Value)} {v : Value} (hv : ("toString", v) ∈ fields) :
      Mute (.cyclicObject fields)

/-- An object cannot be told exactly if a field of it hides how that is done. -/
theorem tellObject_error_iff {fields : List (String × Value)} :
    (∃ fault, tellObject fields = .error fault) ↔ ∃ v, ("toString", v) ∈ fields := by
  unfold tellObject
  split_ifs with hhidden
  · obtain ⟨⟨key, v⟩, hv, hkey⟩ := List.any_eq_true.mp hhidden
    obtain rfl : key = "toString" := of_decide_eq_true hkey
    exact ⟨fun _ => ⟨v, hv⟩, fun _ => ⟨_, rfl⟩⟩
  · constructor
    · rintro ⟨_, hfault⟩
      cases hfault
    · rintro ⟨v, hv⟩
      exact absurd (List.any_eq_true.mpr ⟨_, hv, decide_eq_true rfl⟩) hhidden

/-- Items cannot be told exactly if one of them cannot. -/
theorem tellItems_error_iff {items : List Value} :
    (∃ fault, tellItems items = .error fault) ↔ ∃ v ∈ items, ∃ fault, v.tell = .error fault := by
  induction items with
  | nil => simp [tellItems]
  | cons item items ih =>
    simp only [List.mem_cons, exists_eq_or_imp]
    -- a place left empty is no failure, and neither is what would be told of it
    have hfirst : (∃ fault, (if item.isNothing then .ok "" else item.tell) = .error fault) ↔
        ∃ fault, item.tell = .error fault := by
      cases item <;> simp [isNothing, tell]
    rw [← hfirst, ← ih, tellItems]
    cases (if item.isNothing then .ok "" else item.tell : Except Untellable String) with
    | error fault => simp
    | ok first => simp [exists_error_map]

/-- Turning into text fails on exactly what is mute. -/
theorem tell_error_iff (v : Value) : (∃ fault, v.tell = .error fault) ↔ v.Mute := by
  induction v using parts_induction with
  | step v ih =>
    cases v with
    | symbol description => exact ⟨fun _ => .symbol description, fun _ => ⟨_, rfl⟩⟩
    | list items =>
      rw [tell, exists_error_map, tellItems_error_iff]
      constructor
      · rintro ⟨v, hv, h⟩
        exact .item hv ((ih v hv).mp h)
      · intro h
        cases h with
        | item hv h => exact ⟨_, hv, (ih _ hv).mpr h⟩
    | cyclicList items =>
      rw [tell, exists_error_map, tellItems_error_iff]
      constructor
      · rintro ⟨v, hv, h⟩
        exact .cyclicItem hv ((ih v hv).mp h)
      · intro h
        cases h with
        | cyclicItem hv h => exact ⟨_, hv, (ih _ hv).mpr h⟩
    | object fields =>
      rw [tell, tellObject_error_iff]
      constructor
      · rintro ⟨v, hv⟩
        exact .object hv
      · intro h
        cases h with
        | object hv => exact ⟨_, hv⟩
    | cyclicObject fields =>
      rw [tell, tellObject_error_iff]
      constructor
      · rintro ⟨v, hv⟩
        exact .cyclicObject hv
      · intro h
        cases h with
        | cyclicObject hv => exact ⟨_, hv⟩
    | _ =>
      constructor
      · rintro ⟨_, hfault⟩
        cases hfault
      · rintro ⟨⟩

/-! ## Messages -/

/-- A list is never left unwritten without a fault. -/
theorem writeItems_ne_none {items : List (Except Unwritable (Option String))} : writeItems items ≠ .ok none := by
  unfold writeItems
  cases items.mapM id <;> simp [Except.map]

/-- An object is never left unwritten without a fault. -/
theorem writeFields_ne_none {fields : List (String × Except Unwritable (Option String))} :
    writeFields fields ≠ .ok none := by
  unfold writeFields
  cases (ordered fields).mapM fun field => field.2.map fun text => (field.1, text) <;> simp [Except.map]

/-- What is not written at all has a text of its own. -/
theorem exists_describe_of_write {v : Value} (h : v.write = .ok none) : ∃ s, v.describe = .ok s := by
  cases v with
  | absent => exact ⟨_, rfl⟩
  | symbol description => exact ⟨_, rfl⟩
  | list items => exact absurd h writeItems_ne_none
  | object fields => exact absurd h writeFields_ne_none
  | _ => cases h

/-- Whatever can be written has a message. -/
theorem exists_message_of_write {v : Value} {written : Option String} (h : v.write = .ok written) :
    ∃ s, v.message = .ok s := by
  unfold message
  split
  · exact ⟨_, rfl⟩
  · exact ⟨_, rfl⟩
  · rw [h]
    cases written with
    | none => exact exists_describe_of_write h
    | some s => exact ⟨s, rfl⟩

/-- What cannot be written has the message that it is told by, if any. -/
theorem message_of_write_error {v : Value} {fault : Unwritable} (h : v.write = .error fault) :
    v.message = v.tell := by
  have hdescribe : v.describe = v.tell := by
    cases v with
    | symbol description => cases h
    | _ => rfl
  unfold message
  split
  · cases h
  · cases h
  · rw [h]
    exact hdescribe

/-- A raised value has a message unless it can neither be written in JSON nor be turned into text. -/
theorem message_defined_iff (v : Value) : (∃ s, v.message = .ok s) ↔ ¬ (v.Blocked ∧ v.Mute) := by
  cases hwrite : v.write with
  | ok written =>
    have hfree : ¬ v.Blocked := by
      rintro hblocked
      obtain ⟨fault, hfault⟩ := (write_error_iff v).mpr hblocked
      rw [hwrite] at hfault
      cases hfault
    exact ⟨fun _ h => hfree h.1, fun _ => exists_message_of_write hwrite⟩
  | error fault =>
    have hblocked : v.Blocked := (write_error_iff v).mp ⟨fault, hwrite⟩
    rw [message_of_write_error hwrite, ← tell_error_iff, and_iff_right hblocked]
    cases v.tell <;> simp

/-- A list of a big integer and a symbol has no message. -/
theorem message_undefined :
    (list [bigInteger 1, symbol "x"]).message = .error .symbolInside ∧
      ¬ ∃ s, (list [bigInteger 1, symbol "x"]).message = .ok s := by
  have hmessage : (list [bigInteger 1, symbol "x"]).message = .error .symbolInside := rfl
  refine ⟨hmessage, ?_⟩
  rintro ⟨s, h⟩
  rw [hmessage] at h
  cases h

end Value

end BalancedLinks
