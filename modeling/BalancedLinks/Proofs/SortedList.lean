import BalancedLinks.Loading
import Mathlib.Order.Defs.Unbundled
import Mathlib.Tactic.ByContra
import Mathlib.Tactic.SplitIfs
import Mathlib.Tactic.Tauto

/-!
# Sorted lists as a reference

An ordered set without links: a list of elements, strictly sorted by a strict weak order. A search is given
by a key, the tri-state comparison of what is sought with each element; an element goes in where its key
belongs, and is taken out by the link that it embeds.

The main statements are `SortedList.pairwise_insert`: inserting keeps a list strictly sorted, and
`SortedList.exists_mem_load`: a load leaves out only what has an equivalent in the list.
-/

set_option autoImplicit false

namespace BalancedLinks

variable {α : Type} {n : Nat}

/-! ## Keys -/

/--
Whether a tri-state comparison is that of some key of the order: of two ordered elements the first comes
before the key or the second after it, and equivalent elements compare alike.
-/
structure Seeks (lt : α → α → Prop) (key : α → Ordering) : Prop where
  apart : ∀ a b, lt a b → key a = .gt ∨ key b = .lt
  alike : ∀ a b, ¬ lt a b → ¬ lt b a → key a = key b

/-- The comparison of an element, as a key, with each element. -/
def triState (lt : α → α → Prop) [DecidableRel lt] (a b : α) : Ordering :=
  if lt a b then .lt else if lt b a then .gt else .eq

/-- Whether a comparator answers by the key, whatever its state. -/
def Comparator.Answers {σ : Type} (c : Comparator σ α) (key : α → Ordering) : Prop :=
  ∀ s a, ∃ s', c.ask s a = .ok (key a, s')

/-- Whether a caller's order answers by the order, whatever its state. -/
def Less.Decides {σ : Type} (less : Less σ α) (lt : α → α → Prop) [DecidableRel lt] : Prop :=
  ∀ s a b, ∃ s', less.ask s a b = .ok (decide (lt a b), s')

variable {lt : α → α → Prop}

/-- The order answers that elements are equal where neither comes before the other. -/
theorem triState_eq_eq_iff [DecidableRel lt] (a b : α) : triState lt a b = .eq ↔ ¬ lt a b ∧ ¬ lt b a := by
  unfold triState
  split_ifs <;> simp_all

/-- What a comparator that answers by the key has answered is what the key says. -/
theorem Comparator.Answers.of_ask {σ : Type} {c : Comparator σ α} {key : α → Ordering} (h : c.Answers key)
    {s s' : σ} {a : α} {answer : Ordering} (hask : c.ask s a = .ok (answer, s')) : key a = answer := by
  obtain ⟨s'', hs⟩ := h s a
  rw [hask] at hs
  exact (congrArg Prod.fst (Except.ok.inj hs)).symm

/-- A comparator that answers by a key does not fail. -/
theorem Comparator.Answers.ne_error {σ : Type} {c : Comparator σ α} {key : α → Ordering} (h : c.Answers key)
    (s : σ) (a : α) (message : String) : c.ask s a ≠ .error message := by
  obtain ⟨s', hs⟩ := h s a
  simp [hs]

section Order

variable [IsStrictWeakOrder α lt]

/-- Every element is equal to itself. -/
theorem triState_self [DecidableRel lt] (a : α) : triState lt a a = .eq :=
  (triState_eq_eq_iff a a).mpr ⟨irrefl a, irrefl a⟩

/-- An element of the order is a key of it. -/
theorem seeks_triState [DecidableRel lt] (a : α) : Seeks lt (triState lt a) where
  apart b c hbc := by
    unfold triState
    by_cases hac : lt a c
    · exact Or.inr (by rw [if_pos hac])
    by_cases hba : lt b a
    · have hab : ¬ lt a b := fun hab => asymm hba hab
      exact Or.inl (by rw [if_neg hab, if_pos hba])
    -- neither: then `a` would be equivalent to both, and they to each other
    by_cases hca : lt c a
    · exact absurd (IsTrans.trans b c a hbc hca) hba
    by_cases hab : lt a b
    · exact absurd (IsTrans.trans a b c hab hbc) hac
    exact absurd hbc (IsStrictWeakOrder.incomp_trans b a c ⟨hba, hab⟩ ⟨hac, hca⟩).1
  alike b c hbc hcb := by
    have hsame : ∀ {b c : α}, ¬ lt b c → ¬ lt c b → (lt a b → lt a c) ∧ (lt b a → lt c a) := by
      intro b c hbc hcb
      constructor
      · intro hab
        by_contra hac
        by_cases hca : lt c a
        · exact hcb (IsTrans.trans c a b hca hab)
        · exact (IsStrictWeakOrder.incomp_trans a c b ⟨hac, hca⟩ ⟨hcb, hbc⟩).1 hab
      · intro hba
        by_contra hca
        by_cases hac : lt a c
        · exact hbc (IsTrans.trans b a c hba hac)
        · exact (IsStrictWeakOrder.incomp_trans b c a ⟨hbc, hcb⟩ ⟨hca, hac⟩).1 hba
    have hlt : lt a b ↔ lt a c := ⟨(hsame hbc hcb).1, (hsame hcb hbc).1⟩
    have hgt : lt b a ↔ lt c a := ⟨(hsame hbc hcb).2, (hsame hcb hbc).2⟩
    simp only [triState, hlt, hgt]

end Order

/-- A caller's order that decides the order makes comparators that answer by the tri-state comparison. -/
theorem Less.Decides.answers {σ : Type} [DecidableRel lt] {less : Less σ α} (h : less.Decides lt) (a : α) :
    (less.comparator a).Answers (triState lt a) := by
  intro s b
  obtain ⟨s₁, h₁⟩ := h s a b
  obtain ⟨s₂, h₂⟩ := h s₁ b a
  by_cases hab : lt a b
  · exact ⟨s₁, by simp [comparator, h₁, hab, triState]⟩
  · refine ⟨s₂, ?_⟩
    simp only [comparator, h₁, h₂, hab, decide_false, triState, if_false, decide_eq_true_eq]

namespace SortedList

/-! ## Inserting -/

/-- The list with an element put in where the key belongs. -/
def insert (key : α → Ordering) (a : α) (as : List α) : List α :=
  as.takeWhile (key · = .gt) ++ a :: as.dropWhile (key · = .gt)

/-- The element that matches a key. -/
def find (key : α → Ordering) (as : List α) : Option α :=
  as.find? (key · = .eq)

section Keys

variable {key : α → Ordering} {as bs : List α} {a : α}

/-- A value is not found exactly if no element equals it. -/
theorem find_eq_none_iff : find key as = none ↔ ∀ b ∈ as, key b ≠ .eq := by
  simp [find]

/-- Nothing matches a key between the elements that come before it and those that come after it. -/
theorem find_append_eq_none (has : ∀ b ∈ as, key b = .gt) (hbs : ∀ b ∈ bs, key b = .lt) :
    find key (as ++ bs) = none := by
  apply find_eq_none_iff.mpr
  intro b hb
  rcases List.mem_append.mp hb with hb | hb
  · simp [has b hb]
  · simp [hbs b hb]

/-- Inserting adds one element. -/
theorem mem_insert {b : α} : b ∈ insert key a as ↔ b = a ∨ b ∈ as := by
  have hwhole : b ∈ as ↔ b ∈ as.takeWhile (key · = .gt) ++ as.dropWhile (key · = .gt) := by
    rw [List.takeWhile_append_dropWhile]
  rw [hwhole]
  simp only [insert, List.mem_append, List.mem_cons]
  tauto

/-- Where the elements up to some place come before the key and the others do not, the place is the key's. -/
theorem insert_append (has : ∀ b ∈ as, key b = .gt) (hbs : ∀ b ∈ bs, key b = .lt) :
    insert key a (as ++ bs) = as ++ a :: bs := by
  have htake : bs.takeWhile (key · = .gt) = [] ∧ bs.dropWhile (key · = .gt) = bs := by
    cases bs with
    | nil => exact ⟨rfl, rfl⟩
    | cons b bs =>
      have hb := hbs b (by simp)
      simp [hb]
  have hall : ∀ b ∈ as, decide (key b = .gt) = true := by simpa using has
  rw [insert, List.takeWhile_append_of_pos hall, List.dropWhile_append_of_pos hall, htake.1, htake.2,
    List.append_nil]

/-- In a sorted list at most one element matches a key: the elements before it come before the key. -/
theorem find_append (hseeks : Seeks lt key) (hsorted : (as ++ a :: bs).Pairwise lt) (ha : key a = .eq) :
    find key (as ++ a :: bs) = some a := by
  have has : ∀ b ∈ as, key b ≠ .eq := by
    intro b hb
    have hba : lt b a := (List.pairwise_append.mp hsorted).2.2 b hb a (by simp)
    rcases hseeks.apart b a hba with hgt | hlt
    · simp [hgt]
    · simp [ha] at hlt
  rw [find, List.find?_append, List.find?_eq_none.mpr (by simpa using has)]
  simp [ha]

/-- An element that matches a key keeps a list sorted between those before and those after the key. -/
theorem pairwise_insert (hseeks : Seeks lt key) (hsorted : (as ++ bs).Pairwise lt)
    (has : ∀ b ∈ as, key b = .gt) (hbs : ∀ b ∈ bs, key b = .lt) (ha : key a = .eq) :
    (as ++ a :: bs).Pairwise lt := by
  obtain ⟨hpas, hpbs, hcross⟩ := List.pairwise_append.mp hsorted
  have hbefore : ∀ b ∈ as, lt b a := by
    intro b hb
    by_contra hba
    by_cases hab : lt a b
    · have hkeys := hseeks.apart a b hab
      simp [ha, has b hb] at hkeys
    · have hkeys := hseeks.alike b a hba hab
      simp [ha, has b hb] at hkeys
  have hafter : ∀ b ∈ bs, lt a b := by
    intro b hb
    by_contra hab
    by_cases hba : lt b a
    · have hkeys := hseeks.apart b a hba
      simp [ha, hbs b hb] at hkeys
    · have hkeys := hseeks.alike a b hab hba
      simp [ha, hbs b hb] at hkeys
  refine List.pairwise_append.mpr ⟨hpas, List.pairwise_cons.mpr ⟨hafter, hpbs⟩, ?_⟩
  intro b hb c hc
  rcases List.mem_cons.mp hc with rfl | hc
  · exact hbefore b hb
  · exact hcross b hb c hc

end Keys

/-! ## Loading -/

/-- The list after elements have been put in one by one, unless an equivalent one is present; and how many. -/
def load (lt : α → α → Prop) [DecidableRel lt] : List α → List α → List α × Nat
  | as, [] => (as, 0)
  | as, a :: rest =>
    match find (triState lt a) as with
    | some _ => load lt as rest
    | none =>
      let loaded := load lt (insert (triState lt a) a as) rest
      (loaded.1, loaded.2 + 1)

section Loading

variable [DecidableRel lt] {as values : List α}

/-- A load counts the elements that it puts in. -/
theorem length_load (as values : List α) :
    (load lt as values).1.length = as.length + (load lt as values).2 := by
  induction values generalizing as with
  | nil => rfl
  | cons value values ih =>
    unfold load
    cases hfind : find (triState lt value) as with
    | some b => exact ih as
    | none =>
      have hinsert : (insert (triState lt value) value as).length = as.length + 1 := by
        have hwhole : (as.takeWhile (triState lt value · = .gt)).length +
            (as.dropWhile (triState lt value · = .gt)).length = as.length := by
          rw [← List.length_append, List.takeWhile_append_dropWhile]
        simp only [insert, List.length_append, List.length_cons]
        omega
      have hrest := ih (insert (triState lt value) value as)
      simp only
      omega

/-- A load puts in all elements that the order tells apart from each other and from those that are there. -/
theorem count_load_of_apart (hnew : ∀ a ∈ values, ∀ b ∈ as, lt a b ∨ lt b a)
    (hapart : values.Pairwise fun a b => lt a b ∨ lt b a) : (load lt as values).2 = values.length := by
  induction values generalizing as with
  | nil => rfl
  | cons value values ih =>
    obtain ⟨hvalue, hapart⟩ := List.pairwise_cons.mp hapart
    obtain ⟨hfirst, hnew⟩ := List.forall_mem_cons.mp hnew
    have hfind : find (triState lt value) as = none := by
      apply find_eq_none_iff.mpr
      intro b hb heq
      obtain ⟨hvb, hbv⟩ := (triState_eq_eq_iff value b).mp heq
      exact (hfirst b hb).elim hvb hbv
    have hrest : (load lt (insert (triState lt value) value as) values).2 = values.length := by
      apply ih
      · intro a ha b hb
        rcases mem_insert.mp hb with rfl | hb
        · exact (hvalue a ha).symm
        · exact hnew a ha b hb
      · exact hapart
    simp only [load, hfind, hrest, List.length_cons]

/-- Loading adds none but the given values. -/
theorem mem_of_mem_load {a : α} (h : a ∈ (load lt as values).1) : a ∈ as ∨ a ∈ values := by
  induction values generalizing as with
  | nil => exact Or.inl h
  | cons value values ih =>
    unfold load at h
    cases hfind : find (triState lt value) as with
    | some b =>
      rw [hfind] at h
      exact (ih h).imp_right (List.mem_cons_of_mem value)
    | none =>
      rw [hfind] at h
      rcases ih h with hold | hnew
      · rcases mem_insert.mp hold with rfl | hold
        · exact Or.inr (List.mem_cons_self ..)
        · exact Or.inl hold
      · exact Or.inr (List.mem_cons_of_mem value hnew)

/-- After a load, each element that was there and each of its values has an equivalent in the list. -/
theorem exists_mem_load [IsStrictWeakOrder α lt] {a : α} (h : a ∈ as ∨ a ∈ values) :
    ∃ b ∈ (load lt as values).1, triState lt a b = .eq := by
  induction values generalizing as a with
  | nil => exact ⟨a, h.resolve_right (by simp), triState_self a⟩
  | cons value values ih =>
    unfold load
    cases hfind : find (triState lt value) as with
    | some c =>
      rcases h with hold | hnew
      · exact ih (Or.inl hold)
      · rcases List.mem_cons.mp hnew with rfl | hnew
        · -- the value is dropped: what stands for its equivalent stands for it
          have hequivalent : triState lt a c = .eq := by simpa using List.find?_some hfind
          have hc : c ∈ as := List.mem_of_find?_eq_some hfind
          obtain ⟨b, hb, hcb⟩ := ih (Or.inl hc)
          obtain ⟨hbefore, hafter⟩ := (triState_eq_eq_iff c b).mp hcb
          exact ⟨b, hb, ((seeks_triState a).alike c b hbefore hafter).symm.trans hequivalent⟩
        · exact ih (Or.inr hnew)
    | none =>
      rcases h with hold | hnew
      · exact ih (Or.inl (mem_insert.mpr (Or.inr hold)))
      · rcases List.mem_cons.mp hnew with rfl | hnew
        · exact ih (Or.inl (mem_insert.mpr (Or.inl rfl)))
        · exact ih (Or.inr hnew)

end Loading

/-! ## Taking out -/

/-- The list without the element that embeds a link, and the element after it. -/
def take (linkOf : α → LinkId n) (l : LinkId n) : List α → Option (List α × Option α)
  | [] => none
  | a :: as => if linkOf a = l then some (as, as.head?) else (take linkOf l as).map fun r => (a :: r.1, r.2)

/-- A link of none of the elements is not taken. -/
theorem take_eq_none {linkOf : α → LinkId n} {l : LinkId n} {as : List α} (h : l ∉ as.map linkOf) :
    take linkOf l as = none := by
  induction as with
  | nil => rfl
  | cons a as ih =>
    simp only [List.map_cons, List.mem_cons, not_or] at h
    rw [take, if_neg (Ne.symm h.1), ih h.2, Option.map_none]

/-- Taking out one element leaves the others in order, and tells the one after it. -/
theorem take_append {linkOf : α → LinkId n} {as bs : List α} {a : α} (h : linkOf a ∉ as.map linkOf) :
    take linkOf (linkOf a) (as ++ a :: bs) = some (as ++ bs, bs.head?) := by
  induction as with
  | nil => simp [take]
  | cons b as ih =>
    simp only [List.map_cons, List.mem_cons, not_or] at h
    rw [List.cons_append, take, if_neg (Ne.symm h.1), ih h.2, Option.map_some, List.cons_append]

end SortedList

end BalancedLinks
