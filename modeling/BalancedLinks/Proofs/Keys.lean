import BalancedLinks.Command
import BalancedLinks.Proofs.SortedList
import Mathlib.Data.Int.Order.Basic
import Mathlib.Data.List.Forall2
import Mathlib.Order.Compare

/-!
# Keys and their order

A key is a finite number, and its value is the number of units of 2^-1074 that it has. The two zeros have one
value. Less-than and the sign of a difference both tell the order of the values, so the elements of the command
are in one strict weak order for its links, its searches and its checks.

The main statements are `Command.decides_keyLess`, `Command.seeks_compareKey` and
`Command.readRequest_eq_ok_iff`: which command lines ask for which keys.
-/

set_option autoImplicit false

namespace BalancedLinks

/-! ## Values -/

namespace Number

/-- The value of a finite number in units, with its sign. -/
def value : Number → Int
  | .finite negative units => signed negative units
  | _ => 0

/-- Finite numbers are ordered by their values. -/
theorem lt_eq {x y : Number} (hx : x.isFinite = true) (hy : y.isFinite = true) :
    x.lt y = decide (x.value < y.value) := by
  cases x with
  | finite a u =>
    cases y with
    | finite b v => rfl
    | _ => cases hy
  | _ => cases hx

/-- The sign of a difference of finite numbers is the order of their values. -/
theorem signOfDifference_eq {x y : Number} (hx : x.isFinite = true) (hy : y.isFinite = true) :
    signOfDifference x y = compare x.value y.value := by
  cases x with
  | finite a u =>
    cases y with
    | finite b v => rfl
    | _ => cases hy
  | _ => cases hx

end Number

namespace Command

variable {n : Nat}

/-- The value of a key in units. -/
def Key.value (key : Key) : Int :=
  key.number.value

/-- Whether the key of one element is below the key of another. -/
def Precedes (a b : Keyed n) : Prop :=
  a.key.value < b.key.value

instance : DecidableRel (Precedes (n := n)) := fun a b => inferInstanceAs (Decidable (a.key.value < b.key.value))

instance : IsStrictWeakOrder (Keyed n) Precedes where
  irrefl a := lt_irrefl a.key.value
  trans _ _ _ hab hbc := lt_trans hab hbc
  incomp_trans a b c hab hbc := by
    unfold Precedes at *
    omega

/-- Two elements are equivalent exactly if their keys have one value. -/
theorem triState_precedes_eq_eq_iff (a b : Keyed n) :
    triState Precedes a b = .eq ↔ a.key.value = b.key.value := by
  rw [triState_eq_eq_iff]
  unfold Precedes
  omega

/-- A search for a key compares values. -/
theorem compareKey_eq (key : Key) (a : Keyed n) : compareKey key a = compare key.value a.key.value :=
  Number.signOfDifference_eq key.finite a.key.finite

/-- The order in which elements are linked is that of the values of their keys. -/
theorem decides_keyLess : (Less.ofBool (keyLess (n := n))).Decides Precedes := by
  intro s a b
  refine ⟨s, ?_⟩
  simp only [Less.ofBool, keyLess, Number.lt_eq a.key.finite b.key.finite]
  rfl

/-- A search for a key goes by that order. -/
theorem seeks_compareKey (key : Key) : Seeks Precedes (compareKey (n := n) key) where
  apart a b hab := by
    unfold Precedes at hab
    rw [compareKey_eq, compareKey_eq, compare_gt_iff_gt, compare_lt_iff_lt]
    omega
  alike a b hab hba := by
    unfold Precedes at hab hba
    have hvalues : a.key.value = b.key.value := by omega
    rw [compareKey_eq, compareKey_eq, hvalues]

/-- A check requires that order. -/
theorem byKey_of_precedes {a b : Keyed n} (h : Precedes a b) : byKey a b = .lt := by
  rw [byKey, compareKey_eq]
  exact compare_lt_iff_lt.mpr h

/-! ## Reading keys -/

section Mapping

variable {α β ε : Type} {f : α → Except ε β}

/-- All the results are there exactly if each item has its own. -/
theorem mapM_eq_ok_iff (xs : List α) (ys : List β) :
    xs.mapM f = .ok ys ↔ List.Forall₂ (fun x y => f x = .ok y) xs ys := by
  induction xs generalizing ys with
  | nil => cases ys <;> simp [pure, Except.pure]
  | cons x xs ih =>
    rw [List.mapM_cons]
    cases hx : f x with
    | error e => cases ys <;> simp [bind, Except.bind, hx]
    | ok y =>
      cases hxs : xs.mapM f with
      | error e => cases ys <;> simp [bind, Except.bind, ← ih, hxs, hx]
      | ok rest => cases ys <;> simp [bind, Except.bind, pure, Except.pure, ← ih, hxs, hx]

/-- The first item at which the function fails decides. -/
theorem mapM_eq_error_iff (xs : List α) (e : ε) :
    xs.mapM f = .error e ↔
      ∃ before x after, xs = before ++ x :: after ∧ (∀ b ∈ before, ∃ y, f b = .ok y) ∧ f x = .error e := by
  induction xs with
  | nil => simp [pure, Except.pure]
  | cons x xs ih =>
    rw [List.mapM_cons]
    constructor
    · intro h
      cases hx : f x with
      | error e' =>
        rw [hx] at h
        obtain rfl := Except.error.inj h
        exact ⟨[], x, xs, rfl, by simp, hx⟩
      | ok y =>
        cases hxs : xs.mapM f with
        | ok rest =>
          rw [hx, hxs] at h
          cases h
        | error e' =>
          rw [hx, hxs] at h
          obtain rfl := Except.error.inj h
          obtain ⟨before, z, after, rfl, hbefore, hz⟩ := ih.mp hxs
          refine ⟨x :: before, z, after, rfl, ?_, hz⟩
          intro b hb
          rcases List.mem_cons.mp hb with rfl | hb
          · exact ⟨y, hx⟩
          · exact hbefore b hb
    · rintro ⟨before, z, after, hsplit, hbefore, hz⟩
      cases before with
      | nil =>
        obtain ⟨rfl, rfl⟩ := List.cons.inj hsplit
        rw [hz]
        rfl
      | cons b before =>
        obtain ⟨rfl, rfl⟩ := List.cons.inj hsplit
        obtain ⟨y, hy⟩ := hbefore x (by simp)
        have hrest := ih.mpr ⟨before, z, after, rfl, fun b hb => hbefore b (by simp [hb]), hz⟩
        rw [hy, hrest]
        rfl

end Mapping

/-- Whether a text is a numeral of a key. -/
def Reads (text : String) (key : Key) : Prop :=
  Number.ofText? text = some key.number

/-- A text is read as a key exactly if it is a numeral of the key's number, which is finite. -/
theorem readKey_eq_ok_iff (text : String) (key : Key) : readKey text = .ok key ↔ Reads text key := by
  unfold readKey Reads
  cases hnumber : Number.ofText? text with
  | none => simp
  | some x =>
    obtain ⟨number, finite⟩ := key
    by_cases hfinite : x.isFinite = true
    · simp [hfinite]
    · simp only [hfinite, Bool.false_eq_true, dite_false, reduceCtorEq, Option.some.injEq, false_iff]
      rintro rfl
      exact hfinite finite

/-- A text that is a numeral of no key is refused, and the refusal shows the text. -/
theorem readKey_eq_error_iff (text : String) (fault : UsageFault) :
    readKey text = .error fault ↔ (∀ key, ¬ Reads text key) ∧ fault = .badKey text := by
  simp only [← readKey_eq_ok_iff]
  unfold readKey
  split
  · split
    · simp
    · simp [eq_comm]
  · simp [eq_comm]

/-- Each of the keys that were read has a text. -/
theorem exists_reads {texts : List String} {keys : List Key} {key : Key} (h : List.Forall₂ Reads texts keys)
    (hmem : key ∈ keys) : ∃ text, Reads text key := by
  induction h with
  | nil => cases hmem
  | cons hreads _ ih =>
    rcases List.mem_cons.mp hmem with rfl | hmem
    · exact ⟨_, hreads⟩
    · exact ih hmem

/-- Texts are read as the keys that they are numerals of, in their order. -/
theorem mapM_readKey_eq_ok_iff (texts : List String) (keys : List Key) :
    texts.mapM readKey = .ok keys ↔ List.Forall₂ Reads texts keys := by
  rw [mapM_eq_ok_iff]
  simp only [readKey_eq_ok_iff]

/-- A command line asks for the keys that its texts are numerals of, in the order of the texts. -/
theorem readRequest_eq_ok_iff (arguments : List String) (request : Request) :
    readRequest arguments = .ok request ↔
      ∃ a, Arguments.read arguments = .ok a ∧ List.Forall₂ Reads a.plain request.keys ∧
        List.Forall₂ Reads a.erase request.erase ∧ request.verify = a.verify := by
  obtain ⟨keys, erase, verify⟩ := request
  simp only [← mapM_readKey_eq_ok_iff]
  unfold readRequest
  cases Arguments.read arguments with
  | error fault => simp
  | ok a =>
    cases hkeys : a.plain.mapM readKey with
    | error fault => simp [hkeys]
    | ok ks =>
      cases herase : a.erase.mapM readKey with
      | error fault => simp [hkeys, herase]
      | ok es => simp [hkeys, herase, eq_comm]

end Command

end BalancedLinks
