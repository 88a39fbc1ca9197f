import Irys.Lib.Machine

/-!
# Calls on a mutable value

A method on `&mut self` that returns a `Result` may change the value and still return an error:
what was written before the error stays.  `Mut σ ε α` is such a call: from a value it gives an
outcome and the value it leaves.

* `Mut.run_bind_of_ok`, `Mut.run_bind_of_error` — the rules of sequencing, by which a proof
  follows a call from outcome to outcome;
* `Mut.forEach_ok`, `Mut.gather_ok` — loops, by an invariant over what is left to do.
-/

namespace Irys

/-- A call on a mutable value of type `σ`: its outcome, and the value it leaves. -/
structure Mut (σ ε α : Type) where
  run : σ → Res ε α × σ

namespace Mut

variable {σ ε α β : Type}

/-- An outcome that changes nothing. -/
def lift (x : Res ε α) : Mut σ ε α := ⟨fun s => (x, s)⟩

/-- Read the value. -/
def read : Mut σ ε σ := ⟨fun s => (.ok s, s)⟩

/-- Change the value. -/
def update (f : σ → σ) : Mut σ ε Unit := ⟨fun s => (.ok (), f s)⟩

/-- Sequencing stops at the first error and keeps what was written. -/
def andThen (x : Mut σ ε α) (f : α → Mut σ ε β) : Mut σ ε β :=
  ⟨fun s =>
    match x.run s with
    | (.ok a, s') => (f a).run s'
    | (.error e, s') => (.error e, s')⟩

/-- Log a returned error and go on; a panic still stops the call. -/
def logged (x : Mut σ ε Unit) : Mut σ ε (List ε) :=
  ⟨fun s =>
    match x.run s with
    | (.ok (), s') => (.ok [], s')
    | (.error (.error e), s') => (.ok [e], s')
    | (.error .panic, s') => (.error .panic, s')⟩

/-- A call on a part of the value, with its errors converted. -/
def zoom {τ ε' : Type} (get : σ → τ) (set : τ → σ → σ) (err : ε' → ε) (x : Mut τ ε' α) :
    Mut σ ε α :=
  ⟨fun s =>
    match x.run (get s) with
    | (r, p) => (mapErr err r, set p s)⟩

/-- A call whose returned error is looked at by the caller. -/
def attempt (x : Mut σ ε α) : Mut σ ε (Except ε α) :=
  ⟨fun s =>
    match x.run s with
    | (.ok a, s') => (.ok (.ok a), s')
    | (.error (.error e), s') => (.ok (.error e), s')
    | (.error .panic, s') => (.error .panic, s')⟩

/-- The value that a call leaves, if it returns. -/
def exec (x : Mut σ ε Unit) (s : σ) : Res ε σ :=
  match x.run s with
  | (.ok (), s') => .ok s'
  | (.error e, _) => .error e

instance : Monad (Mut σ ε) where
  pure a := lift (.ok a)
  bind := andThen

/-- `for a in l { f(a)? }`. -/
def forEach (f : α → Mut σ ε Unit) : List α → Mut σ ε Unit
  | [] => pure ()
  | a :: l => do
    f a
    forEach f l

/-- A loop whose body returns what it logged: the log of the whole loop. -/
def gather (f : α → Mut σ ε (List β)) : List α → Mut σ ε (List β)
  | [] => pure []
  | a :: l => do
    let first ← f a
    let rest ← gather f l
    return first ++ rest

@[simp] theorem run_pure (a : α) (s : σ) : (pure a : Mut σ ε α).run s = (.ok a, s) := rfl

@[simp] theorem run_lift (x : Res ε α) (s : σ) : (lift x : Mut σ ε α).run s = (x, s) := rfl

@[simp] theorem run_read_bind (f : σ → Mut σ ε β) (s : σ) :
    (read >>= f).run s = (f s).run s := rfl

@[simp] theorem run_update_bind (g : σ → σ) (f : Unit → Mut σ ε β) (s : σ) :
    (update g >>= f).run s = (f ()).run (g s) := rfl

@[simp] theorem run_lift_ok_bind (a : α) (f : α → Mut σ ε β) (s : σ) :
    (lift (.ok a) >>= f).run s = (f a).run s := rfl

@[simp] theorem run_zoom {τ ε' : Type} (get : σ → τ) (set : τ → σ → σ) (err : ε' → ε)
    (x : Mut τ ε' α) (s : σ) :
    (zoom get set err x).run s = (mapErr err (x.run (get s)).1, set (x.run (get s)).2 s) := rfl

theorem exec_of_ok {x : Mut σ ε Unit} {s s' : σ} (h : x.run s = (.ok (), s')) :
    x.exec s = .ok s' := by
  simp only [exec, h]

theorem run_zoom_id {ε' : Type} {err : ε' → ε} {x : Mut σ ε' α} {s s' : σ} {a : α}
    (h : x.run s = (.ok a, s')) : (zoom id (fun t _ => t) err x).run s = (.ok a, s') := by
  rw [run_zoom, id_eq, h]
  rfl

theorem run_bind_of_ok {x : Mut σ ε α} {f : α → Mut σ ε β} {s s' : σ} {a : α}
    (h : x.run s = (.ok a, s')) : (x >>= f).run s = (f a).run s' := by
  show (andThen x f).run s = _
  simp only [andThen, h]

theorem run_bind_of_error {x : Mut σ ε α} {f : α → Mut σ ε β} {s s' : σ} {e : Fault ε}
    (h : x.run s = (.error e, s')) : (x >>= f).run s = (.error e, s') := by
  show (andThen x f).run s = _
  simp only [andThen, h]

theorem run_bind_eq_ok {x : Mut σ ε α} {f : α → Mut σ ε β} {s s' : σ} {b : β}
    (h : (x >>= f).run s = (.ok b, s')) :
    ∃ a mid, x.run s = (.ok a, mid) ∧ (f a).run mid = (.ok b, s') := by
  rcases hx : x.run s with ⟨e | a, mid⟩
  · cases (run_bind_of_error hx).symm.trans h
  · exact ⟨a, mid, rfl, (run_bind_of_ok hx).symm.trans h⟩

/-- **The loop rule**: an invariant over what is left of the list. -/
theorem forEach_ok {f : α → Mut σ ε Unit} (I : List α → σ → Prop)
    (hstep : ∀ a l s, I (a :: l) s → ∃ s', (f a).run s = (.ok (), s') ∧ I l s') {l : List α}
    {s : σ} (h : I l s) : ∃ s', (forEach f l).run s = (.ok (), s') ∧ I [] s' := by
  induction l generalizing s with
  | nil => exact ⟨s, rfl, h⟩
  | cons a l ih =>
    obtain ⟨s₁, hrun, h₁⟩ := hstep a l s h
    obtain ⟨s₂, hrest, h₂⟩ := ih h₁
    refine ⟨s₂, ?_, h₂⟩
    rw [forEach, run_bind_of_ok hrun]
    exact hrest

/-- The loop rule by position. -/
theorem forEach_ok_at {f : α → Mut σ ε Unit} {l : List α} (I : ℕ → σ → Prop)
    (hstep : ∀ k a s, l[k]? = some a → I k s → ∃ s', (f a).run s = (.ok (), s') ∧ I (k + 1) s')
    {s : σ} (h : I 0 s) : ∃ s', (forEach f l).run s = (.ok (), s') ∧ I l.length s' := by
  induction l generalizing I s with
  | nil => exact ⟨s, rfl, h⟩
  | cons a l ih =>
    obtain ⟨s₁, hrun, h₁⟩ := hstep 0 a s rfl h
    obtain ⟨s₂, hrest, h₂⟩ := ih (fun k => I (k + 1)) (fun k => hstep (k + 1)) h₁
    exact ⟨s₂, (run_bind_of_ok hrun).trans hrest, h₂⟩

theorem gather_ok {f : α → Mut σ ε (List β)} (I : List α → σ → Prop)
    (hstep : ∀ a l s, I (a :: l) s → ∃ s', (f a).run s = (.ok [], s') ∧ I l s') {l : List α}
    {s : σ} (h : I l s) : ∃ s', (gather f l).run s = (.ok [], s') ∧ I [] s' := by
  induction l generalizing s with
  | nil => exact ⟨s, rfl, h⟩
  | cons a l ih =>
    obtain ⟨s₁, hrun, h₁⟩ := hstep a l s h
    obtain ⟨s₂, hrest, h₂⟩ := ih h₁
    refine ⟨s₂, ?_, h₂⟩
    rw [gather, run_bind_of_ok hrun, run_bind_of_ok hrest]
    rfl

theorem run_attempt_of_ok {x : Mut σ ε α} {s s' : σ} {a : α} (h : x.run s = (.ok a, s')) :
    (attempt x).run s = (.ok (.ok a), s') := by
  simp only [attempt, h]

theorem run_attempt_of_fail {x : Mut σ ε α} {s s' : σ} {e : ε} (h : x.run s = (fail e, s')) :
    (attempt x).run s = (.ok (.error e), s') := by
  simp only [attempt, h, fail]

theorem run_logged_of_ok {x : Mut σ ε Unit} {s s' : σ} (h : x.run s = (.ok (), s')) :
    (logged x).run s = (.ok [], s') := by
  simp only [logged, h]

/-! ### Invariants -/

/-- **The call keeps `I`**, whether it returns, fails or panics. -/
def Keeps (I : σ → Prop) (x : Mut σ ε α) : Prop := ∀ s, I s → I (x.run s).2

variable {I : σ → Prop}

theorem keeps_lift (x : Res ε α) : Keeps I (lift x : Mut σ ε α) := fun _ h => h

theorem keeps_pure (a : α) : Keeps I (pure a : Mut σ ε α) := fun _ h => h

theorem keeps_update {f : σ → σ} (hf : ∀ s, I s → I (f s)) : Keeps I (update f : Mut σ ε Unit) := hf

theorem keeps_read_bind {f : σ → Mut σ ε β} (hf : ∀ s, I s → I ((f s).run s).2) :
    Keeps I (read >>= f) := hf

theorem Keeps.bind {x : Mut σ ε α} {f : α → Mut σ ε β} (hx : Keeps I x) (hf : ∀ a, Keeps I (f a)) :
    Keeps I (x >>= f) := by
  intro s hs
  have hmid := hx s hs
  rcases hrun : x.run s with ⟨e | a, mid⟩ <;> rw [hrun] at hmid
  · rw [run_bind_of_error hrun]
    exact hmid
  · rw [run_bind_of_ok hrun]
    exact hf a mid hmid

theorem Keeps.forEach {f : α → Mut σ ε Unit} (hf : ∀ a, Keeps I (f a)) (l : List α) :
    Keeps I (forEach f l) := by
  induction l with
  | nil => exact keeps_pure ()
  | cons a l ih => exact (hf a).bind fun _ => ih

theorem Keeps.gather {f : α → Mut σ ε (List β)} (hf : ∀ a, Keeps I (f a)) (l : List α) :
    Keeps I (gather f l) := by
  induction l with
  | nil => exact keeps_pure []
  | cons a l ih => exact (hf a).bind fun _ => ih.bind fun _ => keeps_pure _

theorem Keeps.logged {x : Mut σ ε Unit} (hx : Keeps I x) : Keeps I (logged x) := by
  intro s hs
  have hmid := hx s hs
  simp only [Mut.logged]
  split
  next hrun => rwa [hrun] at hmid
  next hrun => rwa [hrun] at hmid
  next hrun => rwa [hrun] at hmid

theorem Keeps.attempt {x : Mut σ ε α} (hx : Keeps I x) : Keeps I (attempt x) := by
  intro s hs
  have hmid := hx s hs
  simp only [Mut.attempt]
  split
  next hrun => rwa [hrun] at hmid
  next hrun => rwa [hrun] at hmid
  next hrun => rwa [hrun] at hmid

theorem Keeps.zoom {τ ε' : Type} {get : σ → τ} {set : τ → σ → σ} {err : ε' → ε} {x : Mut τ ε' α}
    {J : τ → Prop} (hget : ∀ s, I s → J (get s)) (hset : ∀ s p, I s → J p → I (set p s))
    (hx : Keeps J x) : Keeps I (zoom get set err x) :=
  fun s hs => hset s _ hs (hx (get s) (hget s hs))

end Mut

end Irys
