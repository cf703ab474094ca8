import NineP.Proofs.Handle.Runs

/-!
# Programs that may come to nothing

The programs of a client have a result whatever the conditions that they rely on. A
strict machine (`Strict.machine`) takes them at their word: it makes the same calls as
a dialogue, but where a program relies on a condition that does not hold, the program
comes to nothing.

A program is within bounds if it runs on both machines alike, so that it never comes
to nothing on the strict one (`Strict.Agrees`). There is a rule for each way to put
programs together. What an operation needs of the results before it goes along, and
that the message size is never too small.
-/

namespace NineP.Strict

/-- The machine on which a program comes to nothing if it relies on what does not
hold. -/
@[reducible] def machine : Machine (OptionT Dialogue) where
  call c := liftM (Dialogue.call c)

instance : Relies (OptionT Dialogue) where
  relying c _ x := if c then x else failure

/-- Calls on the world that may fail, or come to nothing. -/
abbrev Exchange (α : Type) := @NineP.Exchange _ machine α

/-- An operation of a client that may come to nothing. -/
abbrev Client (α : Type) := @NineP.Client _ machine α

/-- An operation on a handle that may come to nothing. -/
abbrev HandleClient (α : Type) := @NineP.HandleClient _ machine α

/-! ## Dialogues -/

variable {σ α β : Type} {step : σ → Call → Answer → σ → Prop}

/-- The runs of `x` are those of `d`, so that none of them comes to nothing, and all
results are as `R` has it. -/
structure Agrees (step : σ → Call → Answer → σ → Prop) (x : OptionT Dialogue α) (d : Dialogue α)
    (R : α → Prop) : Prop where
  same (p : σ) : ∀ r q, x.run.Runs step p r q ↔ ∃ a, r = some a ∧ d.Runs step p a q
  holds (p : σ) : Dialogue.Always step d p fun a _ => R a

namespace Agrees

variable {x : OptionT Dialogue α} {d : Dialogue α} {R S : α → Prop}

theorem pure {a : α} (h : R a) : Agrees step (pure a) (.done a) R where
  same p r q := by
    show Dialogue.Runs step p (.done (some a)) r q ↔ _
    rw [Dialogue.runs_done]
    constructor
    · intro hx
      obtain ⟨rfl, rfl⟩ := hx
      exact ⟨a, rfl, .done q a⟩
    · intro hx
      obtain ⟨b, rfl, hd⟩ := hx
      obtain ⟨rfl, rfl⟩ := Dialogue.runs_done.1 hd
      exact ⟨rfl, rfl⟩
  holds p := .done h

theorem mono (h : Agrees step x d R) (hr : ∀ a, R a → S a) : Agrees step x d S where
  same := h.same
  holds p := (h.holds p).mono fun a _ ha => hr a ha

theorem call {c : Call} {R : Answer → Prop} (h : ∀ p answer q, step p c answer q → R answer) :
    Agrees step (machine.call c) (.call c) R where
  same p r q := by
    show Dialogue.Runs step p (Dialogue.call c >>= fun a => .done (some a)) r q ↔ _
    rw [Dialogue.runs_bind]
    constructor
    · intro hx
      obtain ⟨a, t, hc, hd⟩ := hx
      obtain ⟨rfl, rfl⟩ := Dialogue.runs_done.1 hd
      exact ⟨a, rfl, hc⟩
    · intro hx
      obtain ⟨a, rfl, hc⟩ := hx
      exact ⟨a, q, hc, .done q (some a)⟩
  holds p := .call fun answer q hs => h p answer q hs

/-- One program after the other. What comes second may rely on the result of what
came first. -/
theorem bind {f : α → OptionT Dialogue β} {g : α → Dialogue β} {S : β → Prop}
    (h : Agrees step x d R) (hf : ∀ a, R a → Agrees step (f a) (g a) S) :
    Agrees step (x >>= f) (d >>= g) S where
  same p r q := by
    show Dialogue.Runs step p (x.run >>= _) r q ↔ _
    rw [Dialogue.runs_bind]
    constructor
    · intro hx
      obtain ⟨o, t, ho, hr⟩ := hx
      obtain ⟨a, rfl, hd⟩ := (h.same p o t).1 ho
      obtain ⟨b, rfl, hb⟩ := ((hf a (h.holds p a t hd)).same t r q).1 hr
      exact ⟨b, rfl, Dialogue.runs_bind.2 ⟨a, t, hd, hb⟩⟩
    · intro hx
      obtain ⟨b, rfl, hb⟩ := hx
      obtain ⟨a, t, hd, hb⟩ := Dialogue.runs_bind.1 hb
      exact ⟨some a, t, (h.same p _ t).2 ⟨a, rfl, hd⟩,
        ((hf a (h.holds p a t hd)).same t _ q).2 ⟨b, rfl, hb⟩⟩
  holds p := Dialogue.Always.bind (h.holds p) fun a q ha => (hf a ha).holds q

theorem map {f : α → β} {S : β → Prop} (h : Agrees step x d fun a => S (f a)) :
    Agrees step (f <$> x) (f <$> d) S := by
  rw [map_eq_pure_bind, map_eq_pure_bind]
  exact h.bind fun a ha => pure ha

/-- A step whose condition holds. -/
theorem relies {c : Prop} [Decidable c] (hc : c) (h : Agrees step x d R) :
    Agrees step (relying c x) d R := by
  show Agrees step (if c then x else failure) d R
  rwa [if_pos hc]

end Agrees

/-- Programs that are alike in both branches are alike. -/
theorem alike_branch {P : α → β → Prop} {c : Prop} [Decidable c] {x x' : α} {y y' : β}
    (h : c → P x y) (h' : ¬ c → P x' y') : P (if c then x else x') (if c then y else y') := by
  by_cases hc : c
  · rw [if_pos hc, if_pos hc]
    exact h hc
  · rw [if_neg hc, if_neg hc]
    exact h' hc

/-- What a result is like, if there is one. -/
def OnOk (R : α → Prop) (r : Except Error α) : Prop := ∀ a, r = .ok a → R a

theorem OnOk.ok {R : α → Prop} {a : α} (h : R a) : OnOk R (.ok a) := fun _ hb =>
  Except.ok.inj hb ▸ h

theorem OnOk.error {R : α → Prop} (e : Error) : OnOk R (.error e) := fun _ hb => by cases hb

/-! ## Exchanges -/

namespace Exchange

/-- As `Strict.Agrees`, of calls that may fail. -/
def Agrees (step : σ → Call → Answer → σ → Prop) (x : Exchange α) (y : NineP.Exchange α)
    (R : α → Prop) : Prop :=
  Strict.Agrees step x.run y.run (OnOk R)

/-- An exchange that is within bounds, with results as `R` has it. -/
def Within (step : σ → Call → Answer → σ → Prop)
    (x : ∀ {m : Type → Type} [Monad m] [Machine m] [Relies m], NineP.Exchange α) (R : α → Prop) :
    Prop :=
  Agrees step (@x _ _ machine _) x R

namespace Agrees

variable {x : Exchange α} {y : NineP.Exchange α} {R : α → Prop}

theorem pure {a : α} (h : R a) : Agrees step (pure a) (pure a) R := Strict.Agrees.pure (.ok h)

theorem throw {e : Error} : Agrees step (throw e) (throw e) R := Strict.Agrees.pure (.error e)

theorem bind {f : α → Exchange β} {g : α → NineP.Exchange β} {S : β → Prop}
    (h : Agrees step x y R) (hf : ∀ a, R a → Agrees step (f a) (g a) S) :
    Agrees step (x >>= f) (y >>= g) S := by
  refine Strict.Agrees.bind h fun r hr => ?_
  cases r with
  | ok a => exact hf a (hr a rfl)
  | error e => exact Strict.Agrees.pure (.error e)

theorem relies {c : Prop} [Decidable c] (hc : c) (h : Agrees step x y R) :
    Agrees step (relying c x) (relying c y) R :=
  Strict.Agrees.relies hc h

theorem lift_bind {r : Except Error β} {f : β → Exchange α} {g : β → NineP.Exchange α}
    (h : ∀ b, r = .ok b → Agrees step (f b) (g b) R) :
    Agrees step (liftM r >>= f) (liftM r >>= g) R := by
  cases r with
  | ok b => exact h b rfl
  | error e => exact throw

theorem ofDialogue {x : OptionT Dialogue α} {d : Dialogue α} (h : Strict.Agrees step x d R) :
    Agrees step (liftM x) (liftM d) R :=
  Strict.Agrees.bind h fun _ ha => .pure (.ok ha)

theorem branch {c : Prop} [Decidable c] {x x' : Exchange α} {y y' : NineP.Exchange α}
    (h : c → Agrees step x y R) (h' : ¬ c → Agrees step x' y' R) :
    Agrees step (if c then x else x') (if c then y else y') R :=
  alike_branch (P := fun x y => Agrees step x y R) h h'

/-- A check refuses, or what is behind it goes on. -/
theorem refuse {c : Prop} [Decidable c] {e : Error} {f : PUnit → Exchange α}
    {g : PUnit → NineP.Exchange α} (h : ¬ c → Agrees step (f ()) (g ()) R) :
    Agrees step (if c then do f (← MonadExcept.throw e) else f ())
      (if c then do g (← MonadExcept.throw e) else g ()) R :=
  branch (fun _ => throw) h

theorem attempt (h : Agrees step x y R) : Agrees step x.attempt y.attempt (OnOk R) :=
  Strict.Agrees.map (h.mono fun _ hr => .ok hr)

end Agrees

end Exchange

/-! ## Operations of a client -/

namespace Client

/-- As `Strict.Agrees`, in every session whose message size is not too small; and it
is not too small afterwards. -/
def Agrees (step : σ → Call → Answer → σ → Prop) (x : Client α) (y : NineP.Client α)
    (R : α → Prop) : Prop :=
  ∀ s : Session, minMsize ≤ s.msize →
    Strict.Agrees step (x.runIn s) (y.runIn s) fun r => minMsize ≤ r.2.msize ∧ OnOk R r.1

/-- An operation that is within bounds, with results as `R` has it. -/
def Within (step : σ → Call → Answer → σ → Prop)
    (x : ∀ {m : Type → Type} [Monad m] [Machine m] [Relies m], NineP.Client α) (R : α → Prop) :
    Prop :=
  Agrees step (@x _ _ machine _) x R

namespace Agrees

variable {x : Client α} {y : NineP.Client α} {R : α → Prop}

theorem pure {a : α} (h : R a) : Agrees step (pure a) (pure a) R :=
  fun _ hs => Strict.Agrees.pure ⟨hs, .ok h⟩

theorem throw {e : Error} : Agrees step (throw e) (throw e) R :=
  fun _ hs => Strict.Agrees.pure ⟨hs, .error e⟩

theorem bind {f : α → Client β} {g : α → NineP.Client β} {S : β → Prop} (h : Agrees step x y R)
    (hf : ∀ a, R a → Agrees step (f a) (g a) S) : Agrees step (x >>= f) (y >>= g) S := by
  intro s hs
  refine Strict.Agrees.bind (h s hs) fun (r, t) ⟨ht, hr⟩ => ?_
  cases r with
  | ok a => exact hf a (hr a rfl) t ht
  | error e => exact Strict.Agrees.pure ⟨ht, .error e⟩

theorem relies {c : Prop} [Decidable c] (hc : c) (h : Agrees step x y R) :
    Agrees step (relying c x) (relying c y) R :=
  fun s hs => Strict.Agrees.relies hc (h s hs)

theorem lift_bind {r : Except Error β} {f : β → Client α} {g : β → NineP.Client α}
    (h : ∀ b, r = .ok b → Agrees step (f b) (g b) R) :
    Agrees step (liftM r >>= f) (liftM r >>= g) R := by
  cases r with
  | ok b => exact h b rfl
  | error e => exact throw

theorem lift {r : Except Error α} (h : OnOk R r) : Agrees step (liftM r) (liftM r) R := by
  cases r with
  | ok a => exact pure (h a rfl)
  | error e => exact throw

/-- What the session is like is known, but for its message size. -/
theorem get_bind {f : Session → Client α} {g : Session → NineP.Client α}
    (h : ∀ s : Session, minMsize ≤ s.msize → Agrees step (f s) (g s) R) :
    Agrees step (get >>= f) (get >>= g) R :=
  fun s hs => h s hs s hs

theorem modify_bind {u : Session → Session} {f : PUnit → Client α} {g : PUnit → NineP.Client α}
    (hu : ∀ s : Session, minMsize ≤ s.msize → minMsize ≤ (u s).msize)
    (h : Agrees step (f ⟨⟩) (g ⟨⟩) R) : Agrees step (modify u >>= f) (modify u >>= g) R :=
  fun s hs => h (u s) (hu s hs)

theorem branch {c : Prop} [Decidable c] {x x' : Client α} {y y' : NineP.Client α}
    (h : c → Agrees step x y R) (h' : ¬ c → Agrees step x' y' R) :
    Agrees step (if c then x else x') (if c then y else y') R :=
  alike_branch (P := fun x y => Agrees step x y R) h h'

theorem refuse {c : Prop} [Decidable c] {e : Error} {f : PUnit → Client α}
    {g : PUnit → NineP.Client α} (h : ¬ c → Agrees step (f ()) (g ()) R) :
    Agrees step (if c then do f (← MonadExcept.throw e) else f ())
      (if c then do g (← MonadExcept.throw e) else g ()) R :=
  branch (fun _ => throw) h

theorem ofExchange {x : Exchange α} {y : NineP.Exchange α} (h : x.Agrees step y R) :
    Agrees step (NineP.Client.ofExchange x) (.ofExchange y) R := by
  intro s hs
  exact Strict.Agrees.bind h fun r hr => Strict.Agrees.pure ⟨hs, hr⟩

theorem attempt (h : Agrees step x y R) : Agrees step x.attempt y.attempt (OnOk R) := by
  intro s hs
  exact Strict.Agrees.bind (h s hs) fun r ⟨ht, hr⟩ => Strict.Agrees.pure ⟨ht, .ok hr⟩

end Agrees

end Client

/-! ## Operations on a handle -/

namespace HandleClient

/-- As `Strict.Client.Agrees`, whatever the handle. -/
def Agrees (step : σ → Call → Answer → σ → Prop) (x : HandleClient α) (y : NineP.HandleClient α)
    (R : α → Prop) : Prop :=
  ∀ (h : Handle) (s : Session), minMsize ≤ s.msize →
    Strict.Agrees step ((x.run.run h).run s) ((y.run.run h).run s) fun r =>
      minMsize ≤ r.2.msize ∧ OnOk R r.1.1

/-- An operation that is within bounds, with results as `R` has it. -/
def Within (step : σ → Call → Answer → σ → Prop)
    (x : ∀ {m : Type → Type} [Monad m] [Machine m] [Relies m], NineP.HandleClient α)
    (R : α → Prop) : Prop :=
  Agrees step (@x _ _ machine _) x R

namespace Agrees

variable {x : HandleClient α} {y : NineP.HandleClient α} {R : α → Prop}

theorem pure {a : α} (h : R a) : Agrees step (pure a) (pure a) R :=
  fun _ _ hs => Strict.Agrees.pure ⟨hs, .ok h⟩

theorem throw {e : Error} : Agrees step (throw e) (throw e) R :=
  fun _ _ hs => Strict.Agrees.pure ⟨hs, .error e⟩

theorem bind {f : α → HandleClient β} {g : α → NineP.HandleClient β} {S : β → Prop}
    (h : Agrees step x y R) (hf : ∀ a, R a → Agrees step (f a) (g a) S) :
    Agrees step (x >>= f) (y >>= g) S := by
  intro handle s hs
  refine Strict.Agrees.bind (h handle s hs) fun ((r, handle'), t) ⟨ht, hr⟩ => ?_
  cases r with
  | ok a => exact hf a (hr a rfl) handle' t ht
  | error e => exact Strict.Agrees.pure ⟨ht, .error e⟩

theorem map {f : α → β} {S : β → Prop} (h : Agrees step x y fun a => S (f a)) :
    Agrees step (f <$> x) (f <$> y) S := by
  rw [map_eq_pure_bind, map_eq_pure_bind]
  exact h.bind fun a ha => pure ha

theorem relies {c : Prop} [Decidable c] (hc : c) (h : Agrees step x y R) :
    Agrees step (relying c x) (relying c y) R :=
  fun handle s hs => Strict.Agrees.relies hc (h handle s hs)

theorem get_bind {f : Handle → HandleClient α} {g : Handle → NineP.HandleClient α}
    (h : ∀ handle : Handle, Agrees step (f handle) (g handle) R) :
    Agrees step (get >>= f) (get >>= g) R :=
  fun handle s hs => h handle handle s hs

theorem set_last {handle : Handle} {R : PUnit → Prop} (h : R ⟨⟩) :
    Agrees step (set handle) (set handle) R :=
  fun _ _ hs => Strict.Agrees.pure ⟨hs, .ok h⟩

theorem set_bind {handle : Handle} {f : PUnit → HandleClient α} {g : PUnit → NineP.HandleClient α}
    (h : Agrees step (f ⟨⟩) (g ⟨⟩) R) : Agrees step (set handle >>= f) (set handle >>= g) R :=
  fun _ s hs => h handle s hs

theorem branch {c : Prop} [Decidable c] {x x' : HandleClient α} {y y' : NineP.HandleClient α}
    (h : c → Agrees step x y R) (h' : ¬ c → Agrees step x' y' R) :
    Agrees step (if c then x else x') (if c then y else y') R :=
  alike_branch (P := fun x y => Agrees step x y R) h h'

theorem refuse {c : Prop} [Decidable c] {e : Error} {f : PUnit → HandleClient α}
    {g : PUnit → NineP.HandleClient α} (h : ¬ c → Agrees step (f ()) (g ()) R) :
    Agrees step (if c then do f (← MonadExcept.throw e) else f ())
      (if c then do g (← MonadExcept.throw e) else g ()) R :=
  branch (fun _ => throw) h

theorem ofClient {x : Client α} {y : NineP.Client α} (h : x.Agrees step y R) :
    Agrees step (NineP.HandleClient.ofClient x) (.ofClient y) R := by
  intro handle s hs
  exact Strict.Agrees.bind (h s hs) fun r ⟨ht, hr⟩ => Strict.Agrees.pure ⟨ht, hr⟩

/-- The message size is known not to be too small. -/
theorem session_bind {f : Session → HandleClient α} {g : Session → NineP.HandleClient α}
    (h : ∀ s : Session, minMsize ≤ s.msize → Agrees step (f s) (g s) R) :
    Agrees step (NineP.HandleClient.ofClient (get : Client Session) >>= f)
      (NineP.HandleClient.ofClient get >>= g) R :=
  fun handle s hs => h s hs handle s hs

end Agrees

end HandleClient

theorem Client.Agrees.runOn {x : HandleClient α} {y : NineP.HandleClient α} {R : α → Prop}
    (h : x.Agrees step y R) (handle : Handle) :
    Client.Agrees step (x.runOn handle) (y.runOn handle) fun r => OnOk R r.1 := by
  intro s hs
  exact Strict.Agrees.bind (h handle s hs) fun r ⟨ht, hr⟩ => Strict.Agrees.pure ⟨ht, .ok hr⟩

end NineP.Strict
