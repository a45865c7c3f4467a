import Introspect.Fault
/-!
# What an action ends in

`x.Ends s ok stop` says what holds when `x` has been run at `s`: `ok` of the answer and the state it leaves, or `stop`
of the reason and the state it was stopped in.  Each way to build an action has one equation, so a run is followed
step by step and never unfolded.
-/
namespace Introspect
namespace Action

variable {ε ε' σ τ α β : Type}

def Ends (x : Action ε σ α) (s : σ) (ok : α → σ → Prop) (stop : Stop ε → σ → Prop) : Prop :=
  match x s with
  | .ok a s' => ok a s'
  | .error e s' => stop e s'

def Always (x : Action ε σ α) (s : σ) (P : σ → Prop) : Prop := x.Ends s (fun _ => P) (fun _ => P)

variable {s : σ} {ok ok' : α → σ → Prop} {stop stop' : Stop ε → σ → Prop}

/-! ## Each way to build an action -/

@[simp] theorem ends_pure (a : α) : (pure a : Action ε σ α).Ends s ok stop ↔ ok a s := Iff.rfl

@[simp] theorem ends_bind (x : Action ε σ β) (f : β → Action ε σ α) :
    (x >>= f).Ends s ok stop ↔ x.Ends s (fun b s' => (f b).Ends s' ok stop) stop := by
  simp only [Ends, bind, EStateM.bind]
  cases x s <;> rfl

@[simp] theorem ends_get {ok : σ → σ → Prop} : (get : Action ε σ σ).Ends s ok stop ↔ ok s s := Iff.rfl

@[simp] theorem ends_set {ok : PUnit → σ → Prop} (s' : σ) : (set s' : Action ε σ PUnit).Ends s ok stop ↔ ok ⟨⟩ s' :=
  Iff.rfl

@[simp] theorem ends_modify {ok : PUnit → σ → Prop} (f : σ → σ) :
    (modify f : Action ε σ PUnit).Ends s ok stop ↔ ok ⟨⟩ (f s) := Iff.rfl

@[simp] theorem ends_fail (cause : ε) : (fail cause : Action ε σ α).Ends s ok stop ↔ stop (.failure cause) s := Iff.rfl

@[simp] theorem ends_halt (cause : Fault) : (halt cause : Action ε σ α).Ends s ok stop ↔ stop (.fault cause) s :=
  Iff.rfl

@[simp] theorem ends_ofExcept (x : Except ε α) :
    (ofExcept x : Action ε σ α).Ends s ok stop ↔
      match x with
      | .ok a => ok a s
      | .error e => stop (.failure e) s := by
  cases x <;> rfl

@[simp] theorem ends_modifyM {ok : Unit → σ → Prop} (f : σ → Except ε σ) :
    (modifyM f).Ends s ok stop ↔
      match f s with
      | .ok s' => ok () s'
      | .error e => stop (.failure e) s := by
  simp only [modifyM, ends_bind, ends_get, ends_ofExcept]
  cases f s <;> rfl

@[simp] theorem ends_query (f : σ → Except ε α) :
    (query f).Ends s ok stop ↔
      match f s with
      | .ok a => ok a s
      | .error e => stop (.failure e) s := by
  simp only [query, ends_bind, ends_get, ends_ofExcept]

@[simp] theorem ends_on {t : τ} {ok : α → τ → Prop} {stop : Stop ε → τ → Prop} (part : τ → σ) (put : τ → σ → τ)
    (x : Action ε σ α) :
    (x.on part put).Ends t ok stop ↔
      x.Ends (part t) (fun a s' => ok a (put t s')) (fun e s' => stop e (put t s')) := by
  simp only [Ends, on]
  cases x (part t) <;> rfl

theorem ends_mapFailure {stop : Stop ε' → σ → Prop} (f : ε → ε') (x : Action ε σ α) :
    (x.mapFailure f).Ends s ok stop ↔
      x.Ends s ok fun
        | .failure e => stop (.failure (f e))
        | .fault e => stop (.fault e) := by
  simp only [Ends, mapFailure]
  rcases x s with ⟨a, s'⟩ | ⟨e | e, s'⟩ <;> rfl

/-! ## Running -/

def returns (x : Action ε σ α) (s : σ) : Bool :=
  match x s with
  | .ok _ _ => true
  | .error _ _ => false

def answer? (x : Action ε σ α) (s : σ) : Option α :=
  match x s with
  | .ok a _ => some a
  | .error _ _ => none

def fails (x : Action ε σ α) (s : σ) : Bool :=
  match x s with
  | .error (.failure _) _ => true
  | _ => false

def failure? (x : Action ε σ α) (s : σ) : Option ε :=
  match x s with
  | .error (.failure e) _ => some e
  | _ => none

theorem exists_of_returns {x : Action ε σ α} (h : x.returns s = true) : ∃ a s', x s = .ok a s' := by
  unfold returns at h
  split at h
  · next a s' hx => exact ⟨a, s', hx⟩
  · cases h

theorem exists_of_fails {x : Action ε σ α} (h : x.fails s = true) : ∃ e s', x s = .error (.failure e) s' := by
  unfold fails at h
  split at h
  · next e s' hx => exact ⟨e, s', hx⟩
  · cases h

theorem exists_of_failure? {x : Action ε σ α} {e : ε} (h : x.failure? s = some e) :
    ∃ s', x s = .error (.failure e) s' := by
  unfold failure? at h
  split at h
  · next e' s' hx => exact ⟨s', by rw [hx, Option.some.inj h]⟩
  · cases h

theorem run_get : (get : Action ε σ σ) s = .ok s s := rfl

theorem run_bind (x : Action ε σ β) (f : β → Action ε σ α) :
    (x >>= f) s = match x s with
      | .ok b s' => f b s'
      | .error e s' => .error e s' := by
  simp only [bind, EStateM.bind]
  cases x s <;> rfl

/-! ## Putting facts about a run together -/

theorem Ends.mono {x : Action ε σ α} (h : x.Ends s ok stop) (hok : ∀ a s', ok a s' → ok' a s')
    (hstop : ∀ e s', stop e s' → stop' e s') : x.Ends s ok' stop' := by
  simp only [Ends] at *
  cases hx : x s <;> rw [hx] at h
  · exact hok _ _ h
  · exact hstop _ _ h

theorem Ends.and {x : Action ε σ α} (h : x.Ends s ok stop) (h' : x.Ends s ok' stop') :
    x.Ends s (fun a s' => ok a s' ∧ ok' a s') (fun e s' => stop e s' ∧ stop' e s') := by
  simp only [Ends] at *
  cases hx : x s <;> rw [hx] at h h'
  · exact ⟨h, h'⟩
  · exact ⟨h, h'⟩

theorem Ends.of_ok {x : Action ε σ α} {a : α} {s' : σ} (h : x.Ends s ok stop) (hx : x s = .ok a s') : ok a s' := by
  simpa only [Ends, hx] using h

/-- **A loop over a list** keeps what each of its steps hands on to the next. -/
theorem ends_forM {f : β → Action ε σ PUnit} {I : List β → σ → Prop} {xs : List β} (h0 : I [] s)
    (hstep : ∀ done x rest s, xs = done ++ x :: rest → I done s →
      (f x).Ends s (fun _ s' => I (done ++ [x]) s') stop) :
    (forM xs f).Ends s (fun _ s' => I xs s') stop := by
  suffices h : ∀ rest done s, xs = done ++ rest → I done s → (forM rest f).Ends s (fun _ s' => I xs s') stop from
    h xs [] s rfl h0
  intro rest
  induction rest with
  | nil =>
    intro done s hxs hI
    rw [List.append_nil] at hxs
    exact hxs ▸ hI
  | cons x rest ih =>
    intro done s hxs hI
    rw [List.forM_cons, ends_bind]
    exact (hstep done x rest s hxs hI).mono (fun _ s' h' => ih (done ++ [x]) s' (by simp [hxs]) h') fun _ _ h => h

/-! ## What sequences hand on -/

/-- A property of actions that answers have, and sequences of actions that have it. -/
structure Closed (R : ∀ α : Type, Action ε σ α → Prop) : Prop where
  pure : ∀ {α : Type} (a : α), R α (Pure.pure a)
  bind : ∀ {α β : Type} {x : Action ε σ β} {f : β → Action ε σ α}, R β x → (∀ b, R α (f b)) → R α (x >>= f)

theorem Closed.forM {R : ∀ α : Type, Action ε σ α → Prop} (h : Closed R) {f : β → Action ε σ PUnit} {xs : List β}
    (hf : ∀ x ∈ xs, R PUnit (f x)) : R PUnit (xs.forM f) := by
  induction xs with
  | nil => exact h.pure _
  | cons x xs ih => exact h.bind (hf x List.mem_cons_self) fun _ => ih fun y hy => hf y (List.mem_cons_of_mem _ hy)

/-- The action hands on what holds of the state, however it ends. -/
def Keeps (P : σ → Prop) (x : Action ε σ α) : Prop := ∀ s, P s → x.Always s P

namespace Keeps

variable {P : σ → Prop}

theorem pure (a : α) : (Pure.pure a : Action ε σ α).Keeps P := fun _ h => h

theorem get : (MonadState.get : Action ε σ σ).Keeps P := fun _ h => h

theorem bind {x : Action ε σ β} {f : β → Action ε σ α} (hx : x.Keeps P) (hf : ∀ b, (f b).Keeps P) :
    (x >>= f).Keeps P :=
  fun s h => (ends_bind x f).2 ((hx s h).mono (fun b s' h' => hf b s' h') fun _ _ h' => h')

theorem query (f : σ → Except ε α) : (Action.query f).Keeps P := fun s h => by
  rw [Always, ends_query]
  cases f s <;> exact h

/-- What comes behind a question may go by its answer. -/
theorem asked {f : σ → Except ε β} {k : β → Action ε σ α} (hk : ∀ s b, f s = .ok b → (k b).Keeps P) :
    (Action.query f >>= k).Keeps P := fun s h => by
  rw [Always, ends_bind, ends_query]
  cases hf : f s with
  | ok b => exact hk s b hf s h
  | error e => exact h

end Keeps

/-! ## When two runs are one -/

/-- Two runs are one if they go on alike in each state that their first part leaves. -/
theorem run_bind_congr {x : Action ε σ β} {f g : β → Action ε σ α}
    (h : x.Ends s (fun b s' => f b s' = g b s') fun _ _ => True) : (x >>= f) s = (x >>= g) s := by
  rw [run_bind, run_bind]
  unfold Ends at h
  cases hx : x s with
  | ok b s' =>
    rw [hx] at h
    exact h
  | error e s' => rfl

theorem Keeps.run_bind_congr {P : σ → Prop} {x : Action ε σ β} {f g : β → Action ε σ α} (hx : x.Keeps P) (hs : P s)
    (h : ∀ b s', P s' → f b s' = g b s') : (x >>= f) s = (x >>= g) s :=
  Action.run_bind_congr ((hx s hs).mono h fun _ _ _ => trivial)

theorem forM_congr {f g : β → Action ε σ PUnit} {xs : List β} (h : ∀ x ∈ xs, f x = g x) : forM xs f = forM xs g := by
  induction xs with
  | nil => rfl
  | cons x xs ih =>
    rw [List.forM_cons, List.forM_cons, h x List.mem_cons_self, ih fun y hy => h y (List.mem_cons_of_mem _ hy)]

end Action
end Introspect
