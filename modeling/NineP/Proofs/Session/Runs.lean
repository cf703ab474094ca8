import NineP.Proofs.Dialogue.Runs
import NineP.Session

/-!
# Runs of a client's operations

What holds of the result of an operation, and of the session and the world after
it, in every run (`Client.Always`), with a rule for each way to put operations
together.
-/

namespace NineP.Client

variable {σ α β : Type} {step : σ → Call → Answer → σ → Prop}

/-- Every result of an operation, with the session and the world after it, is as
`Q` has it. -/
def Always (step : σ → Call → Answer → σ → Prop) (x : Client α) (s : Session) (p : σ)
    (Q : Except Error α → Session → σ → Prop) : Prop :=
  Dialogue.Always step (x.runIn s) p fun r q => Q r.1 r.2 q

/-- There is a result, and it is as `R` has it. -/
def Yields (R : α → Session → σ → Prop) (r : Except Error α) (s : Session) (p : σ) : Prop :=
  ∃ a, r = .ok a ∧ R a s p

namespace Always

variable {x : Client α} {s : Session} {p : σ} {Q R : Except Error α → Session → σ → Prop}

theorem pure {a : α} (h : Q (.ok a) s p) : Always step (pure a) s p Q := Dialogue.Always.done h

theorem throw {e : Error} (h : Q (.error e) s p) : Always step (throw e) s p Q :=
  Dialogue.Always.done h

/-- A step that is judged at once. -/
theorem lift {r : Except Error α} (h : Q r s p) : Always step (liftM r) s p Q :=
  Dialogue.Always.done h

theorem mono (h : Always step x s p R) (hq : ∀ r t q, R r t q → Q r t q) : Always step x s p Q :=
  Dialogue.Always.mono h fun r q hr => hq r.1 r.2 q hr

/-- What comes after an operation that failed is left out. -/
theorem bind {f : α → Client β} {Q : Except Error β → Session → σ → Prop}
    (h : Always step x s p R) (hok : ∀ a t q, R (.ok a) t q → Always step (f a) t q Q)
    (herr : ∀ e t q, R (.error e) t q → Q (.error e) t q) : Always step (x >>= f) s p Q := by
  show Dialogue.Always step (x.runIn s >>= fun (r, t) => _) p _
  refine Dialogue.Always.bind h fun (r, t) q hr => ?_
  cases r with
  | ok a => exact hok a t q hr
  | error e => exact .done (herr e t q hr)

theorem map {f : α → β} {Q : Except Error β → Session → σ → Prop}
    (h : Always step x s p fun r t q => Q (f <$> r) t q) : Always step (f <$> x) s p Q := by
  rw [map_eq_pure_bind]
  exact h.bind (fun a t q hq => pure hq) fun e t q hq => hq

theorem of_map {f : α → β} {Q : Except Error β → Session → σ → Prop}
    (h : Always step (f <$> x) s p Q) : Always step x s p fun r t q => Q (f <$> r) t q := by
  intro r q hr
  refine h (f <$> r.1, r.2) q ?_
  rw [map_eq_pure_bind]
  show Dialogue.Runs step p (x.runIn s >>= fun r => _) _ q
  refine Dialogue.runs_bind.2 ⟨r, q, hr, ?_⟩
  obtain ⟨r, t⟩ := r
  cases r with
  | ok a => exact .done _ _
  | error e => exact .done _ _

theorem get_bind {f : Session → Client β} {Q : Except Error β → Session → σ → Prop}
    (h : Always step (f s) s p Q) : Always step (get >>= f) s p Q := h

theorem lift_bind_ok {r : Except Error α} {a : α} {f : α → Client β}
    {Q : Except Error β → Session → σ → Prop} (hr : r = .ok a) (h : Always step (f a) s p Q) :
    Always step (liftM r >>= f) s p Q := by
  subst hr
  exact h

theorem lift_bind_error {r : Except Error α} {e : Error} {f : α → Client β}
    {Q : Except Error β → Session → σ → Prop} (hr : r = .error e) (h : Q (.error e) s p) :
    Always step (liftM r >>= f) s p Q := by
  subst hr
  exact throw h

theorem modify_bind {f : Session → Session} {g : PUnit → Client α}
    (h : Always step (g ⟨⟩) (f s) p Q) : Always step (modify f >>= g) s p Q := h

/-- A check refuses, or what is behind it goes on. -/
theorem refuse {c : Prop} [Decidable c] {e : Error} {f : PUnit → Client α}
    (hc : c → Q (.error e) s p) (hf : ¬ c → Always step (f ()) s p Q) :
    Always step (if c then do f (← MonadExcept.throw e) else f ()) s p Q := by
  by_cases h : c
  · rw [if_pos h]
    exact throw (hc h)
  · rw [if_neg h]
    exact hf h

/-- An operation that never fails. -/
theorem bind_of_yields {f : α → Client β} {R : α → Session → σ → Prop}
    {Q : Except Error β → Session → σ → Prop} (h : Always step x s p (Yields R))
    (hf : ∀ a t q, R a t q → Always step (f a) t q Q) : Always step (x >>= f) s p Q := by
  refine h.bind (fun a t q ⟨a', ha, hr⟩ => ?_) fun e t q ⟨a', ha, _⟩ => by cases ha
  obtain rfl := Except.ok.inj ha
  exact hf a t q hr

/-- An attempt has a result, be it a failure. -/
theorem attempt (h : Always step x s p R) : Always step (attempt x) s p (Yields R) := by
  show Dialogue.Always step (x.runIn s >>= fun r => .done (Except.ok r.1, r.2)) p _
  exact Dialogue.Always.bind h fun r q hr => .done ⟨r.1, rfl, hr⟩

theorem ofExchange {x : Exchange α}
    (h : x.Always step p fun r q => Q r s q) : Always step (ofExchange x) s p Q := by
  show Dialogue.Always step (x.run >>= fun r => .done (r, s)) p _
  exact Dialogue.Always.bind h fun r q hr => .done hr

end Always

end NineP.Client
