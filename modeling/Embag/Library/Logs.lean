import Mathlib.Data.List.Basic

/-! Computations that may fail and that log what they do, also when they fail. A log's
rule says what every event satisfies, what a result and the events before it satisfy,
and that the last event accounts for a failure. -/

variable {ω ε α β : Type}

/-- A run of a program: the events in order, and how it ended. -/
structure Log (ω ε α : Type) where
  events : List ω
  result : Except ε α

namespace Log

instance : Monad (Log ω ε) where
  pure a := ⟨[], .ok a⟩
  bind x f :=
    match x.result with
    | .ok a => ⟨x.events ++ (f a).events, (f a).result⟩
    | .error e => ⟨x.events, .error e⟩

def tell (event : ω) : Log ω ε Unit := ⟨[event], .ok ()⟩

def silent (x : Except ε α) : Log ω ε α := ⟨[], x⟩

/-- `x`, and then `cleanup`, also where a failure of `x` is caught further out. -/
def withCleanup (caught : ε → Bool) (x : Log ω ε α) (cleanup : Log ω ε Unit) : Log ω ε α :=
  match x.result with
  | .ok a => ⟨x.events ++ cleanup.events, cleanup.result.map fun _ => a⟩
  | .error e => if caught e then ⟨x.events ++ cleanup.events, cleanup.result >>= fun _ => .error e⟩ else x

@[simp] theorem events_pure (a : α) : (pure a : Log ω ε α).events = [] := rfl

@[simp] theorem result_pure (a : α) : (pure a : Log ω ε α).result = .ok a := rfl

@[simp] theorem events_tell (event : ω) : (tell event : Log ω ε Unit).events = [event] := rfl

@[simp] theorem result_tell (event : ω) : (tell event : Log ω ε Unit).result = .ok () := rfl

@[simp] theorem events_silent (x : Except ε α) : (silent x : Log ω ε α).events = [] := rfl

@[simp] theorem result_silent (x : Except ε α) : (silent x : Log ω ε α).result = x := rfl

theorem bind_of_ok {x : Log ω ε α} {a : α} (h : x.result = .ok a) (f : α → Log ω ε β) :
    x >>= f = ⟨x.events ++ (f a).events, (f a).result⟩ := by
  show (match x.result with | .ok a => _ | .error e => _) = _
  rw [h]

theorem bind_of_error {x : Log ω ε α} {e : ε} (h : x.result = .error e) (f : α → Log ω ε β) :
    x >>= f = ⟨x.events, .error e⟩ := by
  show (match x.result with | .ok a => _ | .error e => _) = _
  rw [h]

theorem tell_bind (event : ω) (f : Unit → Log ω ε β) :
    tell event >>= f = ⟨event :: (f ()).events, (f ()).result⟩ := rfl

theorem mem_bind {x : Log ω ε α} {event : ω} (h : event ∈ x.events) (f : α → Log ω ε β) :
    event ∈ (x >>= f).events := by
  rcases hx : x.result with e | a
  · rw [bind_of_error hx]
    exact h
  · rw [bind_of_ok hx]
    exact List.mem_append_left _ h

theorem mem_bind_of_ok {x : Log ω ε α} {a : α} {event : ω} {f : α → Log ω ε β} (hx : x.result = .ok a)
    (h : event ∈ (f a).events) : event ∈ (x >>= f).events := by
  rw [bind_of_ok hx]
  exact List.mem_append_right _ h

@[simp] theorem result_bind (x : Log ω ε α) (f : α → Log ω ε β) :
    (x >>= f).result = x.result >>= fun a => (f a).result := by
  rcases h : x.result with e | a
  · rw [bind_of_error h]
    rfl
  · rw [bind_of_ok h]
    rfl

instance : LawfulMonad (Log ω ε) := by
  refine LawfulMonad.mk' _ (fun x => ?_) (fun a f => ?_) (fun x f g => ?_)
  · rcases x with ⟨events, e | a⟩
    · rfl
    · show (⟨events ++ [], .ok a⟩ : Log ω ε _) = _
      rw [List.append_nil]
  · exact bind_of_ok rfl f
  · rcases x with ⟨events, e | a⟩
    · rfl
    · rw [bind_of_ok (a := a) rfl, bind_of_ok (a := a) rfl]
      rcases h : (f a).result with e | b
      · rw [bind_of_error h, bind_of_error rfl]
      · rw [bind_of_ok h, bind_of_ok rfl, List.append_assoc]

theorem result_foldlM (f : β → α → Log ω ε β) (items : List α) (b : β) :
    (items.foldlM f b).result = items.foldlM (fun b a => (f b a).result) b := by
  induction items generalizing b with
  | nil => rfl
  | cons a items ih =>
    rw [List.foldlM_cons, List.foldlM_cons, result_bind]
    congr 1
    funext b'
    exact ih b'

/-- Every event is `good`, a result and its log satisfy `post`, and a failure and its log
satisfy `fails`. -/
structure Ensures (good : ω → Prop) (fails : List ω → ε → Prop) (post : List ω → α → Prop)
    (x : Log ω ε α) : Prop where
  good : ∀ event ∈ x.events, good event
  ok : ∀ a, x.result = .ok a → post x.events a
  error : ∀ e, x.result = .error e → fails x.events e

/-- What holds of a failure whatever was done before. -/
def KeptByPrefix (fails : List ω → ε → Prop) : Prop :=
  ∀ before events e, fails events e → fails (before ++ events) e

section Rules

variable {good : ω → Prop} {fails : List ω → ε → Prop} {P : List ω → α → Prop} {Q : List ω → β → Prop}
  {x : Log ω ε α} {f : α → Log ω ε β}

theorem Ensures.mono {P' : List ω → α → Prop} (h : Ensures good fails P x)
    (hP : ∀ events a, P events a → P' events a) : Ensures good fails P' x :=
  ⟨h.good, fun a ha => hP _ a (h.ok a ha), h.error⟩

theorem Ensures.pure {a : α} (h : P [] a) : Ensures good fails P (pure a : Log ω ε α) := by
  refine ⟨nofun, fun b hb => ?_, nofun⟩
  cases hb
  exact h

theorem Ensures.bind (hkept : KeptByPrefix fails) (h : Ensures good fails P x)
    (hf : ∀ events a, P events a → Ensures good fails (fun after b => Q (events ++ after) b) (f a)) :
    Ensures good fails Q (x >>= f) := by
  rcases hx : x.result with e | a
  · rw [bind_of_error hx]
    refine ⟨h.good, nofun, fun e' he => ?_⟩
    cases he
    exact h.error e hx
  · have hrest := hf x.events a (h.ok a hx)
    rw [bind_of_ok hx]
    refine ⟨fun event hevent => ?_, hrest.ok, fun e he => hkept _ _ e (hrest.error e he)⟩
    rcases List.mem_append.1 hevent with hevent | hevent
    · exact h.good event hevent
    · exact hrest.good event hevent

theorem Ensures.step {a : α} (hkept : KeptByPrefix fails) (hx : x.result = .ok a)
    (hgood : ∀ event ∈ x.events, good event)
    (hf : Ensures good fails (fun after b => Q (x.events ++ after) b) (f a)) :
    Ensures good fails Q (x >>= f) := by
  have h : Ensures good fails (fun events b => events = x.events ∧ b = a) x := by
    refine ⟨hgood, fun b hb => ⟨rfl, ?_⟩, fun e he => ?_⟩
    · rw [hx] at hb
      cases hb
      rfl
    · rw [hx] at he
      cases he
  apply h.bind hkept
  rintro events b ⟨rfl, rfl⟩
  exact hf

theorem Ensures.told {event : ω} {f : Unit → Log ω ε β} (hkept : KeptByPrefix fails) (hgood : good event)
    (hf : Ensures good fails (fun after b => Q (event :: after) b) (f ())) :
    Ensures good fails Q (tell event >>= f) := by
  apply Ensures.step hkept (result_tell event)
  · intro event' hevent
    rw [List.mem_singleton.1 hevent]
    exact hgood
  · exact hf

end Rules

section Operations

variable {σ τ : Type} {caught : ε → Bool} {step : σ → τ → Log ω ε σ}

/-- The operations that are executed, each with the state it finds: a failure that is caught
leaves the state as it was, and any other ends the run. -/
def executed (caught : ε → Bool) (step : σ → τ → Log ω ε σ) : σ → List τ → List (σ × τ)
  | _, [] => []
  | s, op :: ops => (s, op) ::
    match (step s op).result with
    | .ok s' => executed caught step s' ops
    | .error e => if caught e then executed caught step s ops else []

/-- Over a run, a property of each operation comes to the condition that it comes to in every
state of an invariant, where the property keeps that invariant. -/
theorem executed_iff {I : σ → Prop} {P C : σ → τ → Prop} (hstep : ∀ s op, I s → (P s op ↔ C s op))
    (hnext : ∀ s op s', I s → P s op → (step s op).result = .ok s' → I s') {s : σ} (hs : I s) (ops : List τ) :
    (∀ x ∈ executed caught step s ops, P x.1 x.2) ↔ ∀ x ∈ executed caught step s ops, C x.1 x.2 := by
  induction ops generalizing s with
  | nil => simp [executed]
  | cons op ops ih =>
    rw [executed, List.forall_mem_cons, List.forall_mem_cons, hstep s op hs]
    apply and_congr_right
    intro hc
    rcases hresult : (step s op).result with e | s'
    · by_cases he : caught e
      · simpa only [he, if_true] using ih hs
      · simp [he]
    · exact ih (hnext s op s' hs ((hstep s op hs).2 hc) hresult)

end Operations

section Output

/-- A run that succeeds, and the blocks it has logged, one behind the other. -/
structure Writes (x : Log (List ω) ε α) (text : List ω) (a : α) : Prop where
  result : x.result = .ok a
  text : x.events.flatten = text

theorem Writes.pure (a : α) : Writes (pure a : Log (List ω) ε α) [] a := ⟨rfl, rfl⟩

theorem Writes.tell (text : List ω) : Writes (tell text : Log (List ω) ε Unit) text () :=
  ⟨rfl, List.append_nil text⟩

theorem Writes.silent {x : Except ε α} {a : α} (h : x = .ok a) : Writes (silent x : Log (List ω) ε α) [] a :=
  ⟨h, rfl⟩

theorem Writes.bind {x : Log (List ω) ε α} {f : α → Log (List ω) ε β} {text text' : List ω} {a : α} {b : β}
    (h : x.Writes text a) (hf : (f a).Writes text' b) : (x >>= f).Writes (text ++ text') b := by
  rw [bind_of_ok h.result]
  refine ⟨hf.result, ?_⟩
  rw [List.flatten_append, h.text, hf.text]

end Output

end Log
