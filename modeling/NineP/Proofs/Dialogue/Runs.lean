import NineP.Exchange

/-!
# Runs of dialogues

A world is given by its steps: which answers it may give to a call, and where it
stands after each. A run of a dialogue follows one answer at each call
(`Dialogue.Runs`). What holds of the result of every run is said by
`Dialogue.Always`, and by `Exchange.Always` for dialogues that may fail.

* `Dialogue.Runs.total`: a dialogue comes to an end in every world that has an
  answer to every call;
* `Dialogue.runs_of_run`: running a dialogue in a world that is a function is one
  of its runs;
* `Dialogue.Always.bind`, `Exchange.Always.bind`: dialogues are reasoned about
  one after the other;
* `Dialogue.Always.both`: and in two worlds at once, which see the same calls.
-/

namespace NineP

namespace Dialogue

variable {σ α β : Type} {step : σ → Call → Answer → σ → Prop}

/-- From a state of the world, a dialogue may have this result and leave the
world in that state. -/
inductive Runs (step : σ → Call → Answer → σ → Prop) : σ → Dialogue α → α → σ → Prop where
  | done (s : σ) (a : α) : Runs step s (.done a) a s
  | ask {s t u : σ} {c : Call} {answer : Answer} {next : Answer → Dialogue α} {a : α} :
    step s c answer t → Runs step t (next answer) a u → Runs step s (.ask c next) a u

/-- Every result of a dialogue, with the world after it, is as `Q` has it. -/
def Always (step : σ → Call → Answer → σ → Prop) (d : Dialogue α) (s : σ) (Q : α → σ → Prop) :
    Prop :=
  ∀ a t, Runs step s d a t → Q a t

theorem runs_done {s t : σ} {a b : α} : Runs step s (.done a) b t ↔ b = a ∧ t = s := by
  constructor
  · intro hx
    cases hx
    exact ⟨rfl, rfl⟩
  · intro hx
    obtain ⟨rfl, rfl⟩ := hx
    exact .done _ _

theorem runs_ask {s u : σ} {c : Call} {next : Answer → Dialogue α} {a : α} :
    Runs step s (.ask c next) a u ↔
      ∃ answer t, step s c answer t ∧ Runs step t (next answer) a u := by
  constructor
  · intro hx
    cases hx
    exact ⟨_, _, by assumption, by assumption⟩
  · intro hx
    obtain ⟨answer, t, hs, hr⟩ := hx
    exact .ask hs hr

/-- A run of two dialogues, one after the other, passes through a result of the
first. -/
theorem runs_bind {s u : σ} {d : Dialogue α} {f : α → Dialogue β} {b : β} :
    Runs step s (d >>= f) b u ↔ ∃ a t, Runs step s d a t ∧ Runs step t (f a) b u := by
  induction d generalizing s with
  | done a =>
    rw [done_bind]
    refine ⟨fun h => ⟨a, s, .done s a, h⟩, ?_⟩
    intro hx
    obtain ⟨a', t, h, h'⟩ := hx
    obtain ⟨rfl, rfl⟩ := runs_done.1 h
    exact h'
  | ask c next ih =>
    rw [ask_bind, runs_ask]
    constructor
    · intro hx
      obtain ⟨answer, t, hs, hr⟩ := hx
      obtain ⟨a, t', h, h'⟩ := (ih answer).1 hr
      exact ⟨a, t', .ask hs h, h'⟩
    · intro hx
      obtain ⟨a, t', h, h'⟩ := hx
      obtain ⟨answer, t, hs, hr⟩ := runs_ask.1 h
      exact ⟨answer, t, hs, (ih answer).2 ⟨a, t', hr, h'⟩⟩

/-- A dialogue is a tree, so that it ends wherever it is answered. -/
theorem Runs.total (h : ∀ s c, ∃ answer t, step s c answer t) (d : Dialogue α) (s : σ) :
    ∃ a t, Runs step s d a t := by
  induction d generalizing s with
  | done a => exact ⟨a, s, .done s a⟩
  | ask c next ih =>
    obtain ⟨answer, t, hs⟩ := h s c
    obtain ⟨a, u, hr⟩ := ih answer t
    exact ⟨a, u, .ask hs hr⟩

/-- Running in a world that is a function is a run. -/
theorem runs_of_run {world : Call → StateM σ Answer}
    (h : ∀ s c, step s c ((world c).run s).1 ((world c).run s).2) (d : Dialogue α) (s : σ) :
    Runs step s d ((d.run world).run s).1 ((d.run world).run s).2 := by
  induction d generalizing s with
  | done a => exact .done s a
  | ask c next ih => exact .ask (h s c) (ih _ _)

namespace Always

variable {d : Dialogue α} {s : σ} {Q R : α → σ → Prop}

theorem done {a : α} (h : Q a s) : Always step (.done a) s Q := by
  intro b t hr
  obtain ⟨rfl, rfl⟩ := runs_done.1 hr
  exact h

theorem mono (h : Always step d s R) (hq : ∀ a t, R a t → Q a t) : Always step d s Q :=
  fun a t hr => hq a t (h a t hr)

theorem call {c : Call} {Q : Answer → σ → Prop} (h : ∀ answer t, step s c answer t → Q answer t) :
    Always step (.call c) s Q := by
  intro answer t hr
  obtain ⟨a, u, hs, hd⟩ := runs_ask.1 hr
  obtain ⟨rfl, rfl⟩ := runs_done.1 hd
  exact h _ _ hs

theorem bind {f : α → Dialogue β} {Q : β → σ → Prop} (h : Always step d s R)
    (hf : ∀ a t, R a t → Always step (f a) t Q) : Always step (d >>= f) s Q := by
  intro b u hr
  obtain ⟨a, t, hd, hfa⟩ := runs_bind.1 hr
  exact hf a t (h a t hd) b u hfa

theorem map {f : α → β} {Q : β → σ → Prop} (h : Always step d s fun a t => Q (f a) t) :
    Always step (f <$> d) s Q := by
  rw [map_eq_pure_bind]
  exact h.bind fun a t hq => .done hq

end Always

section

variable {d : Dialogue α} {a : α} {s t : σ} {step' : σ → Call → Answer → σ → Prop}

/-- Fewer steps have fewer runs. -/
theorem Runs.imp (hstep : ∀ s c answer t, step' s c answer t → step s c answer t)
    (h : Runs step' s d a t) : Runs step s d a t := by
  induction h with
  | done s a => exact .done s a
  | ask hs _ ih => exact .ask (hstep _ _ _ _ hs) ih

theorem Always.imp {Q : α → σ → Prop}
    (hstep : ∀ s c answer t, step' s c answer t → step s c answer t) (h : Always step d s Q) :
    Always step' d s Q :=
  fun a t hr => h a t (hr.imp hstep)

end

/-! ## Two worlds -/

section

variable {τ : Type} {step' : τ → Call → Answer → τ → Prop} {d : Dialogue α} {a : α} {w w' : σ × τ}

/-- Two worlds that see the same calls and the same answers. -/
def Both (step : σ → Call → Answer → σ → Prop) (step' : τ → Call → Answer → τ → Prop) (w : σ × τ)
    (c : Call) (answer : Answer) (w' : σ × τ) : Prop :=
  step w.1 c answer w'.1 ∧ step' w.2 c answer w'.2

theorem Runs.fst (h : Runs (Both step step') w d a w') : Runs step w.1 d a w'.1 := by
  induction h with
  | done w a => exact .done w.1 a
  | ask hs _ ih => exact .ask hs.1 ih

theorem Runs.snd (h : Runs (Both step step') w d a w') : Runs step' w.2 d a w'.2 := by
  induction h with
  | done w a => exact .done w.2 a
  | ask hs _ ih => exact .ask hs.2 ih

/-- What holds of every run in either world. -/
theorem Always.both {P : α → σ → Prop} {Q : α → τ → Prop} (hp : Always step d w.1 P)
    (hq : Always step' d w.2 Q) :
    Always (Both step step') d w fun a w' => P a w'.1 ∧ Q a w'.2 :=
  fun a w' h => ⟨hp a w'.1 h.fst, hq a w'.2 h.snd⟩

/-- What holds of every run in the second world. -/
theorem Always.second {Q : α → τ → Prop} (hq : Always step' d w.2 Q) :
    Always (Both step step') d w fun a w' => Q a w'.2 :=
  fun a w' h => hq a w'.2 h.snd

end

end Dialogue

namespace Exchange

variable {σ α β : Type} {step : σ → Call → Answer → σ → Prop}

/-- Every result of an exchange, be it a failure, is as `Q` has it. -/
def Always (step : σ → Call → Answer → σ → Prop) (x : Exchange α) (s : σ)
    (Q : Except Error α → σ → Prop) : Prop :=
  Dialogue.Always step x.run s Q

namespace Always

variable {x : Exchange α} {s : σ} {Q R : Except Error α → σ → Prop}

theorem pure {a : α} (h : Q (.ok a) s) : Always step (pure a) s Q := Dialogue.Always.done h

theorem throw {e : Error} (h : Q (.error e) s) : Always step (throw e) s Q :=
  Dialogue.Always.done h

theorem mono (h : Always step x s R) (hq : ∀ r t, R r t → Q r t) : Always step x s Q :=
  Dialogue.Always.mono h hq

theorem lift_bind_ok {r : Except Error α} {a : α} {f : α → Exchange β}
    {Q : Except Error β → σ → Prop} (hr : r = .ok a) (h : Always step (f a) s Q) :
    Always step (liftM r >>= f) s Q := by
  subst hr
  exact h

theorem lift_bind_error {r : Except Error α} {e : Error} {f : α → Exchange β}
    {Q : Except Error β → σ → Prop} (hr : r = .error e) (h : Q (.error e) s) :
    Always step (liftM r >>= f) s Q := by
  subst hr
  exact throw h

theorem call {c : Call} {Q : Except Error Bytes → σ → Prop}
    (h : ∀ answer t, step s c answer t → Q (ofAnswer answer) t) : Always step (call c) s Q :=
  Dialogue.Always.map (.call h)

/-- What comes after an exchange that failed is left out. -/
theorem bind {f : α → Exchange β} {Q : Except Error β → σ → Prop} (h : Always step x s R)
    (hok : ∀ a t, R (.ok a) t → Always step (f a) t Q)
    (herr : ∀ e t, R (.error e) t → Q (.error e) t) : Always step (x >>= f) s Q := by
  show Dialogue.Always step (x >>= f).run s Q
  rw [ExceptT.run_bind]
  refine Dialogue.Always.bind h fun r t hr => ?_
  cases r with
  | ok a => exact hok a t hr
  | error e => exact .done (herr e t hr)

/-- A dialogue on its own never fails. -/
theorem dialogue {d : Dialogue α} (h : Dialogue.Always step d s fun a t => Q (.ok a) t) :
    Always step (liftM d) s Q :=
  Dialogue.Always.map h

theorem dialogue_bind {d : Dialogue α} {f : α → Exchange β} {R : α → σ → Prop}
    {Q : Except Error β → σ → Prop} (h : Dialogue.Always step d s R)
    (hf : ∀ a t, R a t → Always step (f a) t Q) : Always step (liftM d >>= f) s Q := by
  have hd : Always step (liftM d) s fun r t => ∃ a, r = .ok a ∧ R a t :=
    dialogue (h.mono fun a t hr => ⟨a, rfl, hr⟩)
  refine hd.bind (fun a t ⟨a', ha, hr⟩ => ?_) fun e t ⟨a', ha, _⟩ => by cases ha
  exact Except.ok.inj ha ▸ hf a' t hr

theorem map {f : α → β} {Q : Except Error β → σ → Prop}
    (h : Always step x s fun r t => Q (f <$> r) t) : Always step (f <$> x) s Q := by
  rw [map_eq_pure_bind]
  exact h.bind (fun a t hq => pure hq) fun e t hq => hq

/-- A dialogue goes on whatever it relies on. -/
theorem relies {c : Prop} [Decidable c] {x : Exchange α} (h : Always step x s Q) :
    Always step (relying c x) s Q := h

/-- A check refuses, or what is behind it goes on. -/
theorem refuse {c : Prop} [Decidable c] {e : Error} {f : PUnit → Exchange α}
    (hc : c → Q (.error e) s) (hf : ¬ c → Always step (f ()) s Q) :
    Always step (if c then do f (← MonadExcept.throw e) else f ()) s Q := by
  by_cases h : c
  · rw [if_pos h]
    exact throw (hc h)
  · rw [if_neg h]
    exact hf h

theorem perform {c : Call} {Q : Except Error Unit → σ → Prop}
    (h : ∀ answer t, step s c answer t → Q ((fun _ => ()) <$> ofAnswer answer) t) :
    Always step (perform c) s Q := by
  show Always step (Exchange.call c >>= fun _ => Pure.pure ()) s Q
  rw [← map_eq_pure_bind]
  exact map (call h)

end Always

end Exchange

end NineP
