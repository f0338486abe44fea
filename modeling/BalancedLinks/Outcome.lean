import BalancedLinks.Failure

/-!
# Outcomes

What an operation leaves behind: the state it reached, what it reported on the way, and its result or the
failure that ended it. An operation that fails keeps what it had already changed and reported.
-/

set_option autoImplicit false

namespace BalancedLinks

/-- The state, the reports and the result of an operation. -/
structure Outcome (σ ε β : Type) where
  state : σ
  /-- What the operation reported, in order. -/
  log : List ε
  result : Except Failure β

namespace Outcome

variable {σ ε β γ : Type}

/-- The outcome of doing nothing. -/
def pure (s : σ) (b : β) : Outcome σ ε β :=
  ⟨s, [], .ok b⟩

/-- The outcome of reporting and doing nothing else. -/
def report (s : σ) (e : ε) : Outcome σ ε Unit :=
  ⟨s, [e], .ok ()⟩

/-- The outcome of stopping at once. -/
def fail (s : σ) (e : Failure) : Outcome σ ε β :=
  ⟨s, [], .error e⟩

/-- Goes on from where the first part ended, unless it failed. -/
def andThen (o : Outcome σ ε β) (next : σ → β → Outcome σ ε γ) : Outcome σ ε γ :=
  match o.result with
  | .error e => ⟨o.state, o.log, .error e⟩
  | .ok b =>
    let rest := next o.state b
    ⟨rest.state, o.log ++ rest.log, rest.result⟩

/-- The outcome with its result changed. -/
def map (f : β → γ) (o : Outcome σ ε β) : Outcome σ ε γ :=
  ⟨o.state, o.log, o.result.map f⟩

/-- The outcome with its state placed in a larger one. -/
def within {τ : Type} (f : σ → τ) (o : Outcome σ ε β) : Outcome τ ε β :=
  ⟨f o.state, o.log, o.result⟩

/-- The outcome with its reports put in other words. -/
def logging {δ : Type} (f : ε → δ) (o : Outcome σ ε β) : Outcome σ δ β :=
  ⟨o.state, o.log.map f, o.result⟩

/-- The outcome with only the reports that are kept. -/
def keeping (keep : ε → Bool) (o : Outcome σ ε β) : Outcome σ ε β :=
  ⟨o.state, o.log.filter keep, o.result⟩

/-- After a success the next part runs, and its log follows. -/
@[simp] theorem andThen_ok (s : σ) (log : List ε) (b : β) (next : σ → β → Outcome σ ε γ) :
    andThen ⟨s, log, .ok b⟩ next =
      ⟨(next s b).state, log ++ (next s b).log, (next s b).result⟩ :=
  rfl

/-- After a failure nothing more is done. -/
@[simp] theorem andThen_error (s : σ) (log : List ε) (e : Failure)
    (next : σ → β → Outcome σ ε γ) :
    andThen ⟨s, log, .error e⟩ next = ⟨s, log, .error e⟩ :=
  rfl

end Outcome

end BalancedLinks
