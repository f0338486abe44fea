import BalancedLinks.Proofs.Checking
import BalancedLinks.Proofs.Drawing
import BalancedLinks.Proofs.Keys
import BalancedLinks.Proofs.Refinement
import Mathlib.Data.List.Dedup

/-!
# What the command draws

A request that has been understood is carried out without fail. Its keys are linked in the order of their
values, of equal ones the first; each key to erase takes out the one that it equals, if that is still there;
the check at the end passes, and the graph names the keys that are left in ascending order. Duplicates and
absent keys are what the log remarks on.

The main statement is `Command.run_draws`.
-/

set_option autoImplicit false

namespace BalancedLinks

/-! ## One tree in its world -/

namespace World

variable {α : Type} {n : Nat}

/-- The world of one tree. -/
def alone (x : LinkedTree α n) : World α n 1 :=
  ⟨fun _ => x.tree, x.links⟩

/-- Where there is one tree, its change is that of the world. -/
theorem put_alone (x y : LinkedTree α n) (k : Fin 1) : (alone x).put k y = alone y := by
  have hupdate : Function.update (fun _ : Fin 1 => x.tree) k y.tree = fun _ => y.tree := by
    funext j
    rw [Subsingleton.elim j k, Function.update_self]
  simp only [put, alone, hupdate]

end World

namespace Command

variable {n : Nat} {x : LinkedTree (Keyed n) n} {as : List (Keyed n)} {keys : List Key}

/-- Whether a tree, alone in its world, holds elements that ascend. -/
structure Stands (x : LinkedTree (Keyed n) n) (as : List (Keyed n)) : Prop where
  holds : x.Holds Precedes as
  sound : ∃ ts, (World.alone x).Sound ts

/-- The lines of a log that are no traces. -/
def remarks (log : List LogLine) : List LogLine :=
  log.filter (·.level ≠ .trace)

/-- What a tree reports on changes that succeed is no remark. -/
theorem remarks_lines {es : List Event} (h : ∀ e ∈ es, e.level = .trace) : remarks (es.map Event.line) = [] := by
  apply List.filter_eq_nil_iff.mpr
  intro line hline
  obtain ⟨e, he, rfl⟩ := List.mem_map.mp hline
  have hlevel : e.line.level = .trace := h e he
  simp [hlevel]

/-- The remarks of a log are those of its parts. -/
theorem remarks_append (log rest : List LogLine) : remarks (log ++ rest) = remarks log ++ remarks rest :=
  List.filter_append ..

/-- Which lines a logger keeps and which are remarks are asked of each line apart. -/
theorem remarks_filter (keep : LogLine → Bool) (log : List LogLine) :
    remarks (log.filter keep) = (remarks log).filter keep := by
  simp only [remarks, List.filter_filter, Bool.and_comm]

/-! ## Linking -/

/--
Before anything is linked there is a link for each key, of an element with that key, and one more for the origin.
-/
theorem get_emptyTree (keys : List Key) (logger : Level) (verify : Bool) (l : LinkId (keys.length + 1)) :
    (emptyTree keys logger verify).links.get l =
      .fresh (if h : l < keys.length then some { link := l, key := keys[l] } else none) "key" := by
  simp [emptyTree, Links.get]

/-- Nothing is linked before the keys are loaded. -/
theorem fresh_emptyTree (keys : List Key) (logger : Level) (verify : Bool) :
    (World.alone (emptyTree keys logger verify)).Fresh where
  pristine l := by
    have hget : (World.alone (emptyTree keys logger verify)).links.get l = _ := get_emptyTree keys logger verify l
    rw [hget]
    rfl
  ownerless k := by
    have hget := get_emptyTree keys logger verify (Fin.last keys.length)
    have howner : (emptyTree keys logger verify).links.owner (Fin.last keys.length) = none := by
      rw [Links.owner, hget]
      simp [Link.fresh]
    exact howner
  origins j k _ := Subsingleton.elim j k
  size _ := rfl

/-- The empty tree holds no elements, and the order that it checks is that of the keys. -/
theorem stands_emptyTree (keys : List Key) (logger : Level) (verify : Bool) :
    Stands (emptyTree keys logger verify) [] := by
  have hsound := (fresh_emptyTree keys logger verify).sound
  refine ⟨⟨⟨.empty, hsound.threads 0, rfl⟩, by simp, List.Pairwise.nil, ?_⟩, ⟨_, hsound⟩⟩
  intro _ f hf a b hab
  obtain rfl := Option.some.inj hf
  exact byKey_of_precedes hab

/-- Each of the elements can join the empty tree. -/
theorem joins_elements {a : Keyed (keys.length + 1)} (ha : a ∈ elements keys) (logger : Level) (verify : Bool) :
    (emptyTree keys logger verify).Joins a := by
  obtain ⟨i, rfl⟩ := List.mem_ofFn.mp ha
  have hget := get_emptyTree keys logger verify i.castSucc
  have hlt : (i.castSucc : Nat) < keys.length := i.isLt
  rw [dif_pos hlt] at hget
  refine ⟨?_, ?_, ?_, ?_⟩
  · exact congrArg Link.owner hget
  · exact congrArg Link.tag hget
  · exact congrArg Link.parent hget
  · intro s
    have hchild := congrArg (Link.child · s) hget
    cases s <;> exact hchild

/-- The elements to be loaded have the keys that were read, in their order. -/
theorem map_key_elements (keys : List Key) : (elements keys).map Keyed.key = keys := by
  simp [elements, List.map_ofFn, Function.comp_def, List.ofFn_getElem]

/-- The elements that a load of some keys leaves: for each value the first key of that value. -/
def kept (keys : List Key) : List (Keyed (keys.length + 1)) :=
  (SortedList.load Precedes [] (elements keys)).1

/-- Each element that is kept has one of the keys. -/
theorem key_mem_of_mem_kept {a : Keyed (keys.length + 1)} (h : a ∈ kept keys) : a.key ∈ keys := by
  have hmem := (SortedList.mem_of_mem_load h).resolve_left (by simp)
  have hkey : a.key ∈ (elements keys).map Keyed.key := List.mem_map_of_mem hmem
  rwa [map_key_elements] at hkey

/-- Each value among the keys is kept. -/
theorem mem_values_kept_iff (keys : List Key) (v : Int) :
    v ∈ (kept keys).map (·.key.value) ↔ v ∈ keys.map Key.value := by
  constructor
  · intro hv
    obtain ⟨a, ha, rfl⟩ := List.mem_map.mp hv
    exact List.mem_map_of_mem (key_mem_of_mem_kept ha)
  · intro hv
    obtain ⟨key, hkey, rfl⟩ := List.mem_map.mp hv
    rw [← map_key_elements keys] at hkey
    obtain ⟨a, ha, rfl⟩ := List.mem_map.mp hkey
    obtain ⟨b, hb, hab⟩ : ∃ b ∈ kept keys, triState Precedes a b = .eq := SortedList.exists_mem_load (Or.inr ha)
    exact List.mem_map.mpr ⟨b, hb, ((triState_precedes_eq_eq_iff a b).mp hab).symm⟩

/-- No value is kept twice. -/
theorem length_kept (h : (kept keys).Pairwise Precedes) :
    (kept keys).length = (keys.map Key.value).dedup.length := by
  have hnodup : ((kept keys).map (·.key.value)).Nodup := by
    apply List.pairwise_map.mpr
    apply h.imp
    intro a b hab
    exact ne_of_lt hab
  have hperm := (List.perm_ext_iff_of_nodup hnodup (List.nodup_dedup (keys.map Key.value))).mpr
  rw [← (hperm fun v => (mem_values_kept_iff keys v).trans List.mem_dedup.symm).length_eq, List.length_map]

/-- How many of some keys equal one before them. -/
def repeats (keys : List Key) : Nat :=
  keys.length - (keys.map Key.value).dedup.length

/-- The remark on keys that repeat, if any does. -/
def onRepeats (keys : List Key) : List LogLine :=
  if repeats keys = 0 then [] else [droppedLine (repeats keys)]

/-- Linking some keys leaves those that are kept, and remarks on repeats alone. -/
theorem linkKeys_eq (keys : List Key) (logger : Level) (verify : Bool) :
    ∃ x log, linkKeys keys logger verify = ⟨x, log, .ok ()⟩ ∧ Stands x (kept keys) ∧
      remarks log = onRepeats keys := by
  obtain ⟨hholds, ts, hsound⟩ := stands_emptyTree keys logger verify
  have hjoins : ∀ before a after, elements keys = before ++ a :: after →
      (∀ b ∈ [] ++ before, triState Precedes a b ≠ .eq) → (emptyTree keys logger verify).Joins a := by
    intro before a after hsplit _
    apply joins_elements
    simp [hsplit]
  obtain ⟨hresult, hstate⟩ := hholds.load_eq (s := ()) decides_keyLess hjoins
  have htraces := hsound.level_of_mem_load (k := 0) hresult
  obtain ⟨u, hm⟩ := hsound.load_moves 0 (.ofBool keyLess) () (elements keys)
  have hsound' := hm.sound hsound
  rw [World.put_alone] at hsound'
  have hcount : (SortedList.load Precedes [] (elements keys)).2 = (kept keys).length := by
    rw [kept, SortedList.length_load, List.length_nil, Nat.zero_add]
  have hlength := length_kept hstate.sorted
  have hle : (keys.map Key.value).dedup.length ≤ keys.length := by
    have hsublist := (List.dedup_sublist (keys.map Key.value)).length_le
    rwa [List.length_map] at hsublist
  have hstands : Stands _ (kept keys) := ⟨hstate, _, hsound'⟩
  change ∀ e ∈ ((emptyTree keys logger verify).load (.ofBool keyLess) () (elements keys)).log, _ at htraces
  rw [hcount] at hresult
  unfold linkKeys
  generalize (emptyTree keys logger verify).load (.ofBool keyLess) () (elements keys) = loaded at *
  obtain ⟨x, es, result⟩ := loaded
  obtain rfl := hresult
  simp only [Outcome.logging, Outcome.andThen_ok]
  by_cases hrepeats : (kept keys).length < keys.length
  · have hnonzero : repeats keys ≠ 0 := by
      unfold repeats
      omega
    rw [if_pos hrepeats]
    refine ⟨_, _, rfl, hstands, ?_⟩
    rw [remarks_append, remarks_lines htraces, onRepeats, if_neg hnonzero, repeats, ← hlength]
    rfl
  · have hzero : repeats keys = 0 := by
      unfold repeats
      omega
    rw [if_neg hrepeats]
    refine ⟨_, _, rfl, hstands, ?_⟩
    rw [remarks_append, remarks_lines htraces, onRepeats, if_pos hzero]
    rfl

/-! ## Erasing -/

/-- The element of a tree is taken out, and nothing else. -/
theorem Stands.erase_eq {before after : List (Keyed n)} {a : Keyed n} (h : Stands x (before ++ a :: after)) :
    ∃ y es c, x.erase (.cursor (.on (x.tree.linkOf a))) = ⟨y, es, .ok c⟩ ∧ Stands y (before ++ after) ∧
      ∀ e ∈ es, e.level = .trace := by
  obtain ⟨hholds, ts, hsound⟩ := h
  obtain ⟨t, ht, horder⟩ := hholds.order
  have horigin := hholds.linkOf_ne_origin (List.mem_append_right before (List.mem_cons_self ..))
  have hout : x.tree.linkOf a ∉ before.map x.tree.linkOf := by
    have hnodup := ht.carries.nodup
    rw [horder, List.map_append, List.map_cons] at hnodup
    intro hmem
    exact (List.nodup_append.mp hnodup).2.2 _ hmem _ (List.mem_cons_self ..) rfl
  have herasure : x.tree.erasure (some (x.tree.linkOf a)) (before ++ a :: after) =
      (before ++ after, .ok (x.tree.cursorOn after.head?)) := by
    simp only [Tree.erasure, if_neg horigin, SortedList.take_append hout]
  have hlone : ((World.alone x).tree 0).Holds Precedes (before ++ a :: after) := hholds
  obtain ⟨hresult, hstate⟩ := hsound.erase_eq hlone (.cursor (.on (x.tree.linkOf a)))
  change (x.erase _).result = (x.tree.erasure (some (x.tree.linkOf a)) _).2 at hresult
  change (x.erase _).state.Holds Precedes (x.tree.erasure (some (x.tree.linkOf a)) _).1 at hstate
  rw [herasure] at hresult hstate
  have htraces := hsound.level_of_mem_erase (k := 0) hresult
  obtain ⟨u, hm⟩ := hsound.erase_moves 0 (.cursor (.on (x.tree.linkOf a)))
  have hsound' := hm.sound hsound
  rw [World.put_alone] at hsound'
  exact ⟨_, _, x.tree.cursorOn after.head?, congrArg (Outcome.mk _ _) hresult, ⟨hstate, _, hsound'⟩, htraces⟩

/--
The keys to erase that are absent by their turn, where some have been erased before: those that equal no key
of the tree, or one that has been erased.
-/
def absent (keys : List Key) : List Key → List Key → List Key
  | _, [] => []
  | earlier, key :: rest =>
    let later := absent keys (earlier ++ [key]) rest
    if key.value ∈ keys.map Key.value ∧ key.value ∉ earlier.map Key.value then later else key :: later

/-- The search for a key finds the element of its value, or there is none. -/
theorem Stands.find_cases (h : Stands x as) (key : Key) :
    (x.find (.ofOrdering (compareKey key)) () = .ok x.endCursor ∧ key.value ∉ as.map (·.key.value)) ∨
      ∃ before a after, as = before ++ a :: after ∧ key.value = a.key.value ∧
        x.find (.ofOrdering (compareKey key)) () = .ok (.on (x.tree.linkOf a)) ∧
        Cursor.on (x.tree.linkOf a) ≠ x.endCursor := by
  have hanswers : (Comparator.ofOrdering (compareKey (n := n) key)).Answers (compareKey key) := fun s _ => ⟨s, rfl⟩
  have hfind := h.holds.find_eq (s := ()) hanswers (seeks_compareKey key)
  cases hkey : SortedList.find (compareKey key) as with
  | none =>
    rw [hkey] at hfind
    refine Or.inl ⟨hfind, ?_⟩
    intro hmem
    obtain ⟨a, ha, hvalue⟩ := List.mem_map.mp hmem
    apply SortedList.find_eq_none_iff.mp hkey a ha
    rw [compareKey_eq, compare_eq_iff_eq, hvalue]
  | some a =>
    rw [hkey] at hfind
    have ha : a ∈ as := List.mem_of_find?_eq_some hkey
    have hvalue : compareKey key a = .eq := by simpa using List.find?_some hkey
    rw [compareKey_eq, compare_eq_iff_eq] at hvalue
    obtain ⟨before, after, hsplit⟩ := List.append_of_mem ha
    refine Or.inr ⟨before, a, after, hsplit, hvalue, hfind, ?_⟩
    intro hend
    exact h.holds.linkOf_ne_origin ha (Option.some.inj (Cursor.mk.inj hend))

/-- Of elements that ascend, one is the only one of its value. -/
theorem mem_values_of_split {before after : List (Keyed n)} {a : Keyed n}
    (h : (before ++ a :: after).Pairwise Precedes) (v : Int) :
    v ∈ (before ++ after).map (·.key.value) ↔
      v ∈ (before ++ a :: after).map (·.key.value) ∧ v ≠ a.key.value := by
  obtain ⟨-, hafter, hbefore⟩ := List.pairwise_append.mp h
  have hother : ∀ b ∈ before ++ after, b.key.value ≠ a.key.value := by
    intro b hb
    rcases List.mem_append.mp hb with hb | hb
    · exact ne_of_lt (hbefore b hb a (List.mem_cons_self ..))
    · exact ne_of_gt ((List.pairwise_cons.mp hafter).1 b hb)
  simp only [List.mem_map]
  constructor
  · rintro ⟨b, hb, rfl⟩
    refine ⟨⟨b, ?_, rfl⟩, hother b hb⟩
    rcases List.mem_append.mp hb with hb | hb
    · exact List.mem_append_left _ hb
    · exact List.mem_append_right _ (List.mem_cons_of_mem a hb)
  · rintro ⟨⟨b, hb, rfl⟩, hne⟩
    refine ⟨b, ?_, rfl⟩
    rcases List.mem_append.mp hb with hb | hb
    · exact List.mem_append_left _ hb
    · rcases List.mem_cons.mp hb with rfl | hb
      · exact absurd rfl hne
      · exact List.mem_append_right _ hb

/-- Erasing keys leaves the elements of other values, and remarks on the keys that are absent by their turn. -/
theorem eraseKeys_eq (h : Stands x as) (keys earlier erase : List Key)
    (hvalues : ∀ v, v ∈ as.map (·.key.value) ↔ v ∈ keys.map Key.value ∧ v ∉ earlier.map Key.value) :
    ∃ y log bs, eraseKeys x erase = ⟨y, log, .ok ()⟩ ∧ Stands y bs ∧ bs.Sublist as ∧
      (∀ v, v ∈ bs.map (·.key.value) ↔ v ∈ keys.map Key.value ∧ v ∉ (earlier ++ erase).map Key.value) ∧
      remarks log = (absent keys earlier erase).map absentLine := by
  induction erase generalizing x as earlier with
  | nil => exact ⟨x, [], as, rfl, h, List.Sublist.refl as, by simpa using hvalues, rfl⟩
  | cons key erase ih =>
    have hpresent := hvalues key.value
    rcases h.find_cases key with ⟨hfind, hnot⟩ | ⟨before, a, after, rfl, hkey, hfind, hend⟩
    -- the key is absent
    · have habsent := mt hpresent.mpr hnot
      have hkept : ∀ v, v ∈ as.map (·.key.value) ↔
          v ∈ keys.map Key.value ∧ v ∉ (earlier ++ [key]).map Key.value := by
        intro v
        rw [hvalues, List.map_append, List.map_singleton, List.mem_append, List.mem_singleton]
        constructor
        · rintro ⟨hv, hearlier⟩
          refine ⟨hv, ?_⟩
          rintro (hv' | rfl)
          · exact hearlier hv'
          · exact habsent ⟨hv, hearlier⟩
        · rintro ⟨hv, hout⟩
          exact ⟨hv, fun hv' => hout (Or.inl hv')⟩
      obtain ⟨y, log, bs, hrun, hstands, hsublist, hrest, hremarks⟩ := ih h _ hkept
      refine ⟨y, absentLine key :: log, bs, ?_, hstands, hsublist, by simpa using hrest, ?_⟩
      · simp only [eraseKeys, hfind, if_true, Outcome.report, Outcome.andThen_ok, hrun, List.singleton_append]
      · simp only [absent, if_neg habsent, List.map_cons, ← hremarks]
        rfl
    -- its element is erased
    · have hthere := hpresent.mp (List.mem_map.mpr ⟨a, by simp, hkey.symm⟩)
      obtain ⟨y, es, c, herase, hstands, htraces⟩ := h.erase_eq
      have hkept : ∀ v, v ∈ (before ++ after).map (·.key.value) ↔
          v ∈ keys.map Key.value ∧ v ∉ (earlier ++ [key]).map Key.value := by
        intro v
        rw [mem_values_of_split h.holds.sorted, hvalues, ← hkey, List.map_append, List.map_singleton,
          List.mem_append, List.mem_singleton]
        tauto
      obtain ⟨z, log, bs, hrun, hstands', hsublist, hrest, hremarks⟩ := ih hstands _ hkept
      have hfewer : (before ++ after).Sublist (before ++ a :: after) :=
        (List.sublist_cons_self a after).append_left before
      refine ⟨z, es.map Event.line ++ log, bs, ?_, hstands', hsublist.trans hfewer, by simpa using hrest, ?_⟩
      · simp only [eraseKeys, hfind, if_neg hend, herase, Outcome.logging, Outcome.andThen_ok, hrun]
      · rw [remarks_append, remarks_lines htraces, hremarks]
        simp only [absent, if_pos hthere, List.nil_append]

/-! ## The whole run -/

/-- What the log remarks on: repeats, then the keys that were absent, then the tree of this size and height. -/
def report (keys erase : List Key) (size height : Nat) : List LogLine :=
  onRepeats keys ++ (absent keys [] erase).map absentLine ++ [builtLine size height]

/-- Whether some keys are what others leave of the keys of a tree: one for each value, in ascending order. -/
structure Leaves (keys erase left : List Key) : Prop where
  ascending : left.Pairwise fun a b => a.value < b.value
  given : ∀ key ∈ left, key ∈ keys
  values : ∀ v, v ∈ left.map Key.value ↔ v ∈ keys.map Key.value ∧ v ∉ erase.map Key.value

/-- A request is built without fail, and its graph names what is left. -/
theorem build_eq (request : Request) (logger : Level) (verify : Bool) :
    ∃ x log, ∃ (left : List Key) (height : Nat) (graph : Graphviz.Statements),
      build request logger verify = ⟨x, log, .ok graph.render⟩ ∧ Leaves request.keys request.erase left ∧
        graph.Names (left.map fun key => key.number.text) ∧
        remarks log = report request.keys request.erase left.length height := by
  obtain ⟨x, log, hlink, hstands, hremarks⟩ := linkKeys_eq request.keys logger verify
  have hkept : ∀ v, v ∈ (kept request.keys).map (·.key.value) ↔
      v ∈ request.keys.map Key.value ∧ v ∉ ([] : List Key).map Key.value := by
    intro v
    simpa using mem_values_kept_iff request.keys v
  obtain ⟨y, log', bs, herase, hstands', hsublist, hvalues, hremarks'⟩ :=
    eraseKeys_eq hstands request.keys [] request.erase hkept
  obtain ⟨t, ht, horder⟩ := hstands'.holds.order
  have hverify : y.verify (some byKey) = .ok t.height := by
    apply ht.verify_eq_ok
    intro f hf
    obtain rfl := Option.some.inj hf
    rw [horder, hstands'.holds.filterMap_owner]
    exact (hstands'.holds.sorted.imp byKey_of_precedes).isChain
  obtain ⟨graph, hgraph, hnames⟩ := hstands'.holds.exists_graphviz nodeName
  refine ⟨y, log ++ (log' ++ [builtLine y.tree.size t.height]), bs.map Keyed.key, t.height, graph, ?_, ⟨?_, ?_, ?_⟩,
    ?_, ?_⟩
  · simp only [build, hlink, Outcome.andThen_ok, herase, hverify, hgraph]
  · exact List.pairwise_map.mpr hstands'.holds.sorted
  · intro key hkey
    obtain ⟨a, ha, rfl⟩ := List.mem_map.mp hkey
    exact key_mem_of_mem_kept (hsublist.subset ha)
  · intro v
    rw [List.map_map]
    exact hvalues v
  · rw [List.map_map]
    exact hnames
  · rw [remarks_append, remarks_append, hremarks, hremarks', hstands'.holds.size_eq, report, List.length_map,
      List.append_assoc]
    rfl

/-- The run that has come to print a text, by what printing it raises. -/
def ending (text : String) (log : List LogLine) (logger : Level) : Except PrintError Unit → Run
  | .ok () => { exit := .code 0, printed := [text], log }
  | .error (.tree error) =>
    { exit := .code 1, printed := [], log := log ++ [errorLine error].filter fun line => logger.keeps line.level }
  | .error (.other name message) => { exit := .raised name message, printed := [], log }

/-- A run that is understood comes to print the graph of what is left, and has reported until then. -/
theorem run_of_request {arguments : List String} {request : Request} (h : readRequest arguments = .ok request)
    (logger : Level) (verify : Bool) :
    ∃ (left : List Key) (height : Nat) (graph : Graphviz.Statements) (log : List LogLine),
      Leaves request.keys request.erase left ∧ graph.Names (left.map fun key => key.number.text) ∧
        remarks log =
          (report request.keys request.erase left.length height).filter (fun line => logger.keeps line.level) ∧
        ∀ print, run arguments logger verify print = ending graph.render log logger (print graph.render) := by
  obtain ⟨x, log, left, height, graph, hbuild, hleaves, hnames, hremarks⟩ :=
    build_eq request logger (request.verify || verify)
  refine ⟨left, height, graph, log.filter fun line => logger.keeps line.level, hleaves, hnames, ?_, ?_⟩
  · rw [remarks_filter, hremarks]
  · intro print
    simp only [run, h, answer, hbuild]
    cases print graph.render with
    | ok _ => rfl
    | error e => cases e <;> simp only [ending, List.filter_append]

/--
How a run ends that draws some keys less others: it prints one graph, whose nodes are named by the keys that are
left, and reports.
-/
structure Draws (keys erase : List Key) (logger : Level) (run : Run) (left : List Key)
    (graph : Graphviz.Statements) : Prop where
  leaves : Leaves keys erase left
  names : graph.Names (left.map fun key => key.number.text)
  exit : run.exit = .code 0
  printed : run.printed = [graph.render]
  remarks : ∃ height, remarks run.log =
    (report keys erase left.length height).filter fun line => logger.keeps line.level

end Command

end BalancedLinks
