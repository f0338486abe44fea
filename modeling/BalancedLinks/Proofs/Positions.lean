import BalancedLinks.Proofs.Height

/-!
# Where insertions link

A search consults a comparator about the links of one way down from the root. It knows nothing of an order: what
it comes to depends on the answers alone, however the comparator arrives at them. An insertion consults it about
the same links. Where one is a match, that is the end of it; otherwise an element that the caller supplies is linked
between the last of those links that the key is said to come after and the last one that it is said to come before,
and these two were neighbours.

The main statement is `World.positions_run`.
-/

set_option autoImplicit false

namespace BalancedLinks

variable {σ σ' α : Type} {n m : Nat}

/-! ## Answers -/

namespace Comparator

/-- What a comparator answers about some elements in turn, up to its first failure. -/
def answers (c : Comparator σ α) : σ → List α → List (Except String Ordering)
  | _, [] => []
  | s, a :: as =>
    match c.ask s a with
    | .error message => [.error message]
    | .ok (answer, s) => .ok answer :: c.answers s as

variable {c : Comparator σ α} {s s' : σ} {a : α} {as : List α} {answer : Ordering} {message : String}

/-- After a failure nothing more is asked. -/
theorem answers_cons_of_error (h : c.ask s a = .error message) : c.answers s (a :: as) = [.error message] := by
  simp only [answers, h]

/-- After an answer the rest is asked in the state that it leaves. -/
theorem answers_cons_of_ok (h : c.ask s a = .ok (answer, s')) :
    c.answers s (a :: as) = .ok answer :: c.answers s' as := by
  simp only [answers, h]

/-- A list of answers that starts with a failure starts with the failure of the first question. -/
theorem ask_of_answers_error {os : List (Except String Ordering)}
    (h : c.answers s (a :: as) = .error message :: os) : c.ask s a = .error message := by
  cases hask : c.ask s a with
  | error message' =>
    rw [answers_cons_of_error hask] at h
    exact congrArg _ (Except.error.inj (List.cons.inj h).1)
  | ok reply =>
    rw [answers_cons_of_ok hask] at h
    cases h

/-- A list of answers that starts with an answer goes on with those to the rest. -/
theorem ask_of_answers_ok {os : List (Except String Ordering)} (h : c.answers s (a :: as) = .ok answer :: os) :
    ∃ s', c.ask s a = .ok (answer, s') ∧ c.answers s' as = os := by
  cases hask : c.ask s a with
  | error message =>
    rw [answers_cons_of_error hask] at h
    cases h
  | ok reply =>
    obtain ⟨answer', s'⟩ := reply
    rw [answers_cons_of_ok hask] at h
    obtain ⟨hanswer, hrest⟩ := List.cons.inj h
    obtain rfl := Except.ok.inj hanswer
    exact ⟨s', rfl, hrest⟩

end Comparator

/-! ## Searches with the same answers -/

namespace Links

variable {g : Links α n} {c : Comparator σ α} {c' : Comparator σ' α}

/--
A search through a shape comes to the same with another comparator that gives the same answers about the elements
handed to the first one.
-/
theorem Spans.searchWithin_congr {p : LinkId n} {side : Side} {t : Shape n} {tag : String} {k k' : Nat} {s : σ}
    {s' : σ'} (h : g.Spans (g.child p side) p t) (howned : g.Owned tag t) (hk : t.height ≤ k)
    (hk' : t.height ≤ k')
    (hsame : c'.answers s' (g.searchWithin c k s p side).visited =
      c.answers s (g.searchWithin c k s p side).visited) :
    (g.searchWithin c' k' s' p side).visited = (g.searchWithin c k s p side).visited ∧
      (g.searchWithin c' k' s' p side).ending = (g.searchWithin c k s p side).ending := by
  -- the two searches may have different fuel, so that the induction is on the shape that bounds both
  induction t generalizing p side k k' s s' with
  | empty =>
    have hslot : g.child p side = none := h
    unfold searchWithin
    simp only [hslot, and_self]
  | node a l b iha ihb =>
    obtain ⟨hslot, -, ha, hb⟩ := h
    obtain ⟨⟨e, he⟩, -⟩ := howned l (by simp)
    simp only [Shape.height] at hk hk'
    obtain ⟨k, rfl⟩ : ∃ i, k = i + 1 := ⟨k - 1, by omega⟩
    obtain ⟨k', rfl⟩ : ∃ i, k' = i + 1 := ⟨k' - 1, by omega⟩
    rw [searchWithin] at hsame ⊢
    rw [searchWithin]
    simp only [hslot, he] at hsame ⊢
    cases hask : c.ask s e with
    | error message =>
      simp only [hask, Comparator.answers_cons_of_error hask] at hsame
      simp only [Comparator.ask_of_answers_error hsame, and_self]
    | ok reply =>
      obtain ⟨answer, s₁⟩ := reply
      cases answer with
      | eq =>
        simp only [hask, Comparator.answers_cons_of_ok hask] at hsame
        obtain ⟨s₁', hask', -⟩ := Comparator.ask_of_answers_ok hsame
        simp only [hask', and_self]
      | lt =>
        simp only [hask, Comparator.answers_cons_of_ok hask] at hsame
        obtain ⟨s₁', hask', hrest⟩ := Comparator.ask_of_answers_ok hsame
        have hbelow : (g.searchWithin c' k' s₁' l .left).visited = (g.searchWithin c k s₁ l .left).visited ∧
            (g.searchWithin c' k' s₁' l .left).ending = (g.searchWithin c k s₁ l .left).ending :=
          iha ha (fun i hi => howned i (by simp [hi])) (by omega) (by omega) hrest
        simp only [hask', sideTowards, hbelow, and_self]
      | gt =>
        simp only [hask, Comparator.answers_cons_of_ok hask] at hsame
        obtain ⟨s₁', hask', hrest⟩ := Comparator.ask_of_answers_ok hsame
        have hbelow : (g.searchWithin c' k' s₁' l .right).visited = (g.searchWithin c k s₁ l .right).visited ∧
            (g.searchWithin c' k' s₁' l .right).ending = (g.searchWithin c k s₁ l .right).ending :=
          ihb hb (fun i hi => howned i (by simp [hi])) (by omega) (by omega) hrest
        simp only [hask', sideTowards, hbelow, and_self]

end Links

/-! ## Ways down -/

/-- The link of the last step down with the given answer. -/
def lastWith (answer : Ordering) (steps : List (LinkId n × Except String Ordering)) : Option (LinkId n) :=
  (steps.reverse.find? fun step => step.2 = .ok answer).map Prod.fst

/-- The step down that goes by a frame: its link, and the answer that leads to its side. -/
def Frame.step (f : Frame n) : LinkId n × Except String Ordering :=
  match f.side with
  | .left => (f.link, .ok .lt)
  | .right => (f.link, .ok .gt)

/-- The steps down to a place, from the top. -/
def Shape.stepsTo (fs : List (Frame n)) : List (LinkId n × Except String Ordering) :=
  (fs.map Frame.step).reverse

namespace Frame

/-- A step down is at the link that the frame stands for. -/
@[simp] theorem step_fst (f : Frame n) : f.step.1 = f.link := by
  unfold step
  split <;> rfl

/-- The answer that a step down records is the one that leads there. -/
theorem step_eq {f : Frame n} {answer : Ordering} (hdiffers : answer ≠ .eq)
    (hside : f.side = sideTowards answer) : f.step = (f.link, .ok answer) := by
  obtain ⟨side, l, rest⟩ := f
  obtain rfl : side = sideTowards answer := hside
  cases answer with
  | eq => exact absurd rfl hdiffers
  | lt => rfl
  | gt => rfl

end Frame

namespace Shape

/-- The lowest frame is the last step down. -/
theorem stepsTo_cons (f : Frame n) (fs : List (Frame n)) : stepsTo (f :: fs) = stepsTo fs ++ [f.step] := by
  simp [stepsTo]

/-- Every step down is one to the left or to the right. -/
theorem answer_of_mem_stepsTo {fs : List (Frame n)} {step : LinkId n × Except String Ordering}
    (h : step ∈ stepsTo fs) : step.2 = .ok .lt ∨ step.2 = .ok .gt := by
  obtain ⟨f, -, rfl⟩ := List.mem_map.mp (List.mem_reverse.mp h)
  unfold Frame.step
  split
  · exact Or.inl rfl
  · exact Or.inr rfl

/-- The one step of a way down that leads nowhere is the last one. -/
theorem eq_of_mem_steps {fs : List (Frame n)} {l l' : LinkId n} {reply reply' : Except String Ordering}
    (h : (l', reply') ∈ stepsTo fs ++ [(l, reply)]) (hlt : reply' ≠ .ok .lt) (hgt : reply' ≠ .ok .gt) :
    l' = l ∧ reply' = reply := by
  rcases List.mem_append.mp h with h | h
  · exact absurd (answer_of_mem_stepsTo h) (not_or.mpr ⟨hlt, hgt⟩)
  · exact Prod.mk.inj (List.mem_singleton.mp h)

/-- The link before a place is the last one whose right side the way down went to. -/
theorem getLast?_linksBefore (fs : List (Frame n)) :
    (linksBefore fs).getLast? = lastWith .gt (stepsTo fs) := by
  induction fs with
  | nil => rfl
  | cons f fs ih =>
    obtain ⟨side, l, rest⟩ := f
    simp only [lastWith, stepsTo_cons, List.reverse_append, List.reverse_singleton, List.singleton_append,
      List.find?_cons] at ih ⊢
    cases side <;> simp [linksBefore, Frame.before, Frame.step, ih]

/-- The link after a place is the last one whose left side the way down went to. -/
theorem head?_linksAfter (fs : List (Frame n)) : (linksAfter fs).head? = lastWith .lt (stepsTo fs) := by
  induction fs with
  | nil => rfl
  | cons f fs ih =>
    obtain ⟨side, l, rest⟩ := f
    simp only [lastWith, stepsTo_cons, List.reverse_append, List.reverse_singleton, List.singleton_append,
      List.find?_cons] at ih ⊢
    cases side <;> simp [linksAfter, Frame.after, Frame.step, ih]

end Shape

namespace Links

variable {g : Links α n} {c : Comparator σ α} {s₀ s : σ} {fs : List (Frame n)} {as : List α}

/-- The links of the frames above a place lead down to it. -/
theorem SpansAbove.path {o : LinkId n} (h : g.SpansAbove o fs) {ls : List (LinkId n)}
    (hrest : g.Path (g.slotAt o fs) ls) :
    g.Path (g.child o .left) ((Shape.stepsTo fs).map Prod.fst ++ ls) := by
  induction fs generalizing ls with
  | nil => exact hrest
  | cons f fs ih =>
    obtain ⟨hslot, -, -, habove⟩ := h
    have hstep : g.Path (g.slotAt o fs) (f.link :: ls) := hslot ▸ .cons f.side hrest
    simpa [Shape.stepsTo_cons] using ih habove hstep

/-- What the comparator has answered on a trail, and answers from there on. -/
theorem Trail.answers_append (h : Trail g c s₀ fs as s) (more : List α) :
    c.answers s₀ (as ++ more) = (Shape.stepsTo fs).map Prod.snd ++ c.answers s more := by
  induction h generalizing more with
  | nil => rfl
  | @cons f fs as a s s' answer _ _ hask hdiffers hside ih =>
    rw [List.append_assoc, List.singleton_append, ih, Comparator.answers_cons_of_ok hask, Shape.stepsTo_cons,
      Frame.step_eq hdiffers hside]
    simp

/-- The elements handed on along a trail are the owners of its links. -/
theorem Trail.owners (h : Trail g c s₀ fs as s) :
    as.map some = (Shape.stepsTo fs).map fun step => g.owner step.1 := by
  induction h with
  | nil => rfl
  | cons _ howner _ _ _ ih => simp [Shape.stepsTo_cons, ih, howner]

end Links

/-! ## Insertions -/

namespace LinkedTree

variable {x : LinkedTree α n} {t : Shape n}

/-- Two comparators that give the same answers about the elements handed to the first one find the same. -/
theorem Threads.locate_congr (h : x.Threads t) {c : Comparator σ α} {c' : Comparator σ' α} {s : σ} {s' : σ'}
    (hsame : c'.answers s' (x.locate c s).visited = c.answers s (x.locate c s).visited) :
    x.locate c' s' = x.locate c s := by
  have hheight := (Shape.height_le_length t).trans (Shape.length_inorder_le h.carries.nodup)
  have hsearch : (x.links.search c' s' x.origin).visited = (x.links.search c s x.origin).visited ∧
      (x.links.search c' s' x.origin).ending = (x.links.search c s x.origin).ending :=
    h.carries.spans.searchWithin_congr h.owned (by omega) (by omega) hsame
  simp only [locate, hsearch]

/--
Whether a comparator has been handed some elements in steps down from the root: each is the owner of the step's
link, and the step's answer is the comparator's.
-/
structure Consults (x : LinkedTree α n) (c : Comparator σ α) (s : σ) (visited : List α)
    (steps : List (LinkId n × Except String Ordering)) : Prop where
  path : x.links.Path x.root (steps.map Prod.fst)
  owners : visited.map some = steps.map fun step => x.links.owner step.1
  answers : c.answers s visited = steps.map Prod.snd

/-- A way down in a tree goes on from the place that a trail has led to. -/
theorem Threads.consults {c : Comparator σ α} {s₀ s : σ} {fs : List (Frame n)} {as : List α}
    (h : x.Threads (.plug fs t)) (htrail : x.links.Trail c s₀ fs as s) {more : List α}
    {steps : List (LinkId n × Except String Ordering)}
    (hpath : x.links.Path (x.links.slotAt x.origin fs) (steps.map Prod.fst))
    (howners : more.map some = steps.map fun step => x.links.owner step.1)
    (hanswers : c.answers s more = steps.map Prod.snd) :
    x.Consults c s₀ (as ++ more) (Shape.stepsTo fs ++ steps) := by
  refine ⟨?_, ?_, ?_⟩
  · rw [List.map_append]
    exact h.carries.above.path hpath
  · rw [List.map_append, List.map_append, htrail.owners, howners]
  · rw [htrail.answers_append, hanswers, List.map_append]

/-- A way down ends at a link about which the comparator is asked at last. -/
theorem Threads.consults_at {c : Comparator σ α} {s₀ s : σ} {fs : List (Frame n)} {as : List α} {a b : Shape n}
    {l : LinkId n} {e : α} {reply : Except String Ordering} (h : x.Threads (.plug fs (.node a l b)))
    (htrail : x.links.Trail c s₀ fs as s) (howner : x.links.owner l = some e)
    (hreply : c.answers s [e] = [reply]) :
    x.Consults c s₀ (as ++ [e]) (Shape.stepsTo fs ++ [(l, reply)]) := by
  have hslot : x.links.slotAt x.origin fs = some l := h.carries.at_place.1
  refine h.consults htrail ?_ (by simp [howner]) (by simp [hreply])
  exact hslot ▸ .cons .left (.nil _)

/--
How an insertion and a search depend on the comparator's answers along the steps that they take. A comparator with
the same answers is handed the same elements by a search, and finds the same. A match is the end of both. On a miss
the caller is asked for an element once, and if the tree accepts its link, that is linked between the last link that
the key comes after and the last one that it comes before, which stood next to each other.
-/
structure Positions (x : LinkedTree α n) (t : Shape n) (c : Comparator σ α) (s : σ)
    (supply : Except String (Option α)) (steps : List (LinkId n × Except String Ordering)) : Prop where
  consults : x.Consults c s (x.insert c s supply).visited steps
  agrees : ∀ {σ' : Type} (c' : Comparator σ' α) (s' : σ'),
    c'.answers s' (x.insert c s supply).visited = c.answers s (x.insert c s supply).visited →
      (x.locate c' s').visited = (x.insert c s supply).visited ∧ x.find c' s' = x.find c s
  matched : ∀ l, (l, .ok .eq) ∈ steps →
    (x.insert c s supply).outcome = .pure x ⟨.on l, false⟩ ∧ (x.insert c s supply).made = 0 ∧
      x.find c s = .ok (.on l)
  failed : ∀ l message, (l, .error message) ∈ steps →
    (x.insert c s supply).outcome = .fail x (.callback message) ∧ (x.insert c s supply).made = 0 ∧
      x.find c s = .error (.callback message)
  missed : (∀ step ∈ steps, step.2 = .ok .lt ∨ step.2 = .ok .gt) →
    (x.insert c s supply).made = 1 ∧ x.find c s = .ok x.endCursor
  linked : (∀ step ∈ steps, step.2 = .ok .lt ∨ step.2 = .ok .gt) →
    ∀ a, supply = .ok (some a) → x.refuses? (x.tree.linkOf a) = none →
      ∃ u before after, (x.insert c s supply).outcome.state.Threads u ∧ t.inorder = before ++ after ∧
        u.inorder = before ++ x.tree.linkOf a :: after ∧ before.getLast? = lastWith .gt steps ∧
        after.head? = lastWith .lt steps ∧
        (∀ l, (x.insert c s supply).outcome.state.links.owner l = x.links.owner l) ∧
        (x.tree.verify = false → (x.insert c s supply).outcome.result = .ok ⟨.on (x.tree.linkOf a), true⟩)

namespace Threads

section Endings

variable {c : Comparator σ α} {s₀ s s' : σ} {supply : Except String (Option α)} {fs : List (Frame n)}
  {as : List α} {a b : Shape n} {l : LinkId n} {e : α}

/-- A search with the same answers is handed what an insertion is, and finds the same. -/
theorem find_congr (h : x.Threads t) (c : Comparator σ α) (s : σ) (supply : Except String (Option α))
    {σ' : Type} (c' : Comparator σ' α) (s' : σ')
    (hsame : c'.answers s' (x.insert c s supply).visited = c.answers s (x.insert c s supply).visited) :
    (x.locate c' s').visited = (x.insert c s supply).visited ∧ x.find c' s' = x.find c s := by
  rw [x.insert_visited] at hsame ⊢
  have hlocate := h.locate_congr hsame
  exact ⟨by rw [hlocate], by rw [find, find, hlocate]⟩

/-- A search and an insertion that end at a link do so by the comparator's answer about it. -/
theorem positions_of_stop {reply : Except String Ordering} {o : Outcome (LinkedTree α n) Event (Placement n)}
    (h : x.Threads (.plug fs (.node a l b))) (htrail : x.links.Trail c s₀ fs as s)
    (howner : x.links.owner l = some e) (hreply : c.answers s [e] = [reply])
    (hstops : reply ≠ .ok .lt ∧ reply ≠ .ok .gt) (hinsert : x.insert c s₀ supply = ⟨o, as ++ [e], 0, s'⟩)
    (hmatched : reply = .ok .eq → o = .pure x ⟨.on l, false⟩ ∧ x.find c s₀ = .ok (.on l))
    (hfailed : ∀ message, reply = .error message →
      o = .fail x (.callback message) ∧ x.find c s₀ = .error (.callback message)) :
    x.Positions (.plug fs (.node a l b)) c s₀ supply (Shape.stepsTo fs ++ [(l, reply)]) := by
  have hmet : ¬ ∀ step ∈ Shape.stepsTo fs ++ [(l, reply)], step.2 = .ok .lt ∨ step.2 = .ok .gt := by
    intro hmiss
    exact absurd (hmiss (l, reply) (by simp)) (not_or.mpr hstops)
  refine ⟨?_, h.find_congr c s₀ supply, ?_, ?_, fun hmiss => absurd hmiss hmet, fun hmiss => absurd hmiss hmet⟩
  · rw [hinsert]
    exact h.consults_at htrail howner hreply
  · intro l' hl'
    obtain ⟨rfl, heq⟩ := Shape.eq_of_mem_steps hl' (by simp) (by simp)
    obtain ⟨houtcome, hfind⟩ := hmatched heq.symm
    exact ⟨by rw [hinsert, houtcome], by rw [hinsert], hfind⟩
  · intro l' message hl'
    obtain ⟨-, heq⟩ := Shape.eq_of_mem_steps hl' (by simp) (by simp)
    obtain ⟨houtcome, hfind⟩ := hfailed message heq.symm
    exact ⟨by rw [hinsert, houtcome], by rw [hinsert], hfind⟩

/-- A search that ends at a vacant place has found nothing, and an insertion goes on from there. -/
theorem positions_of_vacant (h : x.Threads (.plug fs .empty)) (htrail : x.links.Trail c s₀ fs as s)
    (hsearch : x.links.search c s₀ x.origin =
      ⟨as, .vacant (Shape.slotOf x.origin fs).1 (Shape.slotOf x.origin fs).2, s⟩) :
    x.Positions (.plug fs .empty) c s₀ supply (Shape.stepsTo fs) := by
  have hinsert : x.insert c s₀ supply = ⟨(x.supplyAt supply (Shape.slotOf x.origin fs).1
      (Shape.slotOf x.origin fs).2).keeping x.tree.keeps, as, 1, s⟩ := by
    simp only [insert, hsearch]
  have hfind : x.find c s₀ = .ok x.endCursor := by
    simp only [find, locate, hsearch]
    rfl
  refine ⟨?_, h.find_congr c s₀ supply, ?_, ?_, fun _ => ⟨by rw [hinsert], hfind⟩, ?_⟩
  · rw [hinsert]
    have hconsults : x.Consults c s₀ (as ++ []) (Shape.stepsTo fs ++ []) := h.consults htrail (.nil _) rfl rfl
    rwa [List.append_nil, List.append_nil] at hconsults
  · intro l hl
    rcases Shape.answer_of_mem_stepsTo hl with heq | heq <;> cases heq
  · intro l message hl
    rcases Shape.answer_of_mem_stepsTo hl with heq | heq <;> cases heq
  · rintro - a rfl hrefuse
    obtain ⟨g, hrun, hthreads, hedit⟩ := h.linkAt_eq hrefuse
    simp only [hinsert, supplyAt, hrefuse, hrun, Outcome.keeping]
    refine ⟨_, Shape.linksBefore fs, Shape.linksAfter fs, hthreads, Shape.inorder_plug_empty fs,
      Shape.inorder_grown_leaf fs _, Shape.getLast?_linksBefore fs, Shape.head?_linksAfter fs, hedit.owner, ?_⟩
    intro hverify
    rw [checkAfter_of_not_verify (x := x.resized g 1) hverify]
    rfl

end Endings

/-- A search and an insertion depend on the comparator's answers along their steps in this way. -/
theorem exists_positions (h : x.Threads t) (c : Comparator σ α) (s : σ) (supply : Except String (Option α)) :
    ∃ steps, x.Positions t c s supply steps := by
  have hends := h.carries.search_concludes h.owned c s
  generalize hsearch : x.links.search c s x.origin = r at hends
  cases hends with
  | @found fs as _ s' a b l e htrail hplace howner hask =>
    subst hplace
    have hinsert : x.insert c s supply = ⟨.pure x ⟨.on l, false⟩, as ++ [e], 0, s'⟩ := by
      simp only [insert, hsearch]
      rfl
    have hfind : x.find c s = .ok (.on l) := by
      simp only [find, locate, hsearch]
      rfl
    exact ⟨_, h.positions_of_stop htrail howner (Comparator.answers_cons_of_ok hask) (by simp) hinsert
      (fun _ => ⟨rfl, hfind⟩) (by simp)⟩
  | @failed fs as s' a b l e message htrail hplace howner hask =>
    subst hplace
    have hinsert : x.insert c s supply = ⟨.fail x (.callback message), as ++ [e], 0, s'⟩ := by
      simp only [insert, hsearch]
      rfl
    have hfind : x.find c s = .error (.callback message) := by
      simp only [find, locate, hsearch]
      rfl
    refine ⟨_, h.positions_of_stop htrail howner (Comparator.answers_cons_of_error hask) (by simp) hinsert
      (by simp) fun message' heq => ?_⟩
    obtain rfl := Except.error.inj heq
    exact ⟨rfl, hfind⟩
  | vacant htrail hplace =>
    subst hplace
    exact ⟨_, h.positions_of_vacant htrail hsearch⟩

end Threads

end LinkedTree

namespace World

/--
After any requests to the trees of a fresh world, a search and an insertion depend on the answers of their
comparator, whatever it is, in this way: no order of the elements is assumed.
-/
theorem positions_run {w : World α n m} (h : w.Fresh) (rs : List (Fin m × Request α n)) (k : Fin m) :
    ∃ t, ((w.run rs).tree k).Threads t ∧
      ∀ {σ : Type} (c : Comparator σ α) (s : σ) (supply : Except String (Option α)),
        ∃ steps, ((w.run rs).tree k).Positions t c s supply steps := by
  obtain ⟨ts, hsound⟩ := sound_run h rs
  exact ⟨ts k, hsound.threads k, fun c s supply => (hsound.threads k).exists_positions c s supply⟩

/-- The comparator that sends a search right at first and left from then on, whatever elements it is handed. -/
def rightThenLeft : Comparator Bool (Fin 3) where
  ask first _ := .ok (if first then .gt else .lt, false)
  memory := 1

/--
In the tree of two elements out of three, where the second one hangs to the right of the first, it answers that the
key comes after the first and before the second one, and the third element is linked between them.
-/
theorem positions_run_rightThenLeft :
    (single 3).Fresh ∧
      ((((single 3).run ((insertAll 3).take 2)).tree 0).insert rightThenLeft true (.ok (some 2))).visited = [0, 1] ∧
      ∃ u, ((((single 3).run ((insertAll 3).take 2)).tree 0).insert rightThenLeft true
          (.ok (some 2))).outcome.state.Threads u ∧ u.inorder = [1, 3, 2] := by
  obtain ⟨t, hthreads, hpositions⟩ := positions_run (fresh_single 3) ((insertAll 3).take 2) 0
  obtain ⟨steps, hsteps⟩ := hpositions rightThenLeft true (.ok (some 2))
  have hvisited : ((((single 3).run ((insertAll 3).take 2)).tree 0).insert rightThenLeft true
      (.ok (some 2))).visited = [0, 1] := by decide +kernel
  have hanswers := hsteps.consults.answers
  have howners := hsteps.consults.owners
  rw [hvisited] at hanswers howners
  obtain ⟨⟨l, _⟩, _, rfl, rfl, hlater⟩ := List.map_eq_cons_iff.mp hanswers.symm
  obtain ⟨⟨l', _⟩, _, rfl, rfl, hend⟩ := List.map_eq_cons_iff.mp hlater
  obtain rfl := List.map_eq_nil_iff.mp hend
  have hlink : ∀ l, ((single 3).run ((insertAll 3).take 2)).links.owner l = some 0 → l = 1 := by decide +kernel
  have hlink' : ∀ l, ((single 3).run ((insertAll 3).take 2)).links.owner l = some 1 → l = 2 := by decide +kernel
  obtain ⟨howner, hrest⟩ := List.cons.inj howners
  obtain rfl := hlink l howner.symm
  obtain rfl := hlink' l' (List.cons.inj hrest).1.symm
  obtain ⟨u, before, after, hthreads', horder, horder', hlast, hhead, -⟩ :=
    hsteps.linked (by simp) 2 rfl (by decide +kernel)
  refine ⟨fresh_single 3, hvisited, u, hthreads', ?_⟩
  have hsize : (((single 3).run ((insertAll 3).take 2)).trees 0).size = 2 := by decide +kernel
  have hlength : t.inorder.length = 2 := by
    have hcount := hthreads.size.symm.trans hsize
    omega
  obtain ⟨before, rfl⟩ := List.getLast?_eq_some_iff.mp hlast
  obtain ⟨after, rfl⟩ := List.head?_eq_some_iff.mp hhead
  rw [horder] at hlength
  simp only [List.length_append, List.length_cons, List.length_nil] at hlength
  obtain rfl : before = [] := List.length_eq_zero_iff.mp (by omega)
  obtain rfl : after = [] := List.length_eq_zero_iff.mp (by omega)
  exact horder'

end World

end BalancedLinks
