/-!
# Programs that may stop between two actions

A program that works on a state other programs see too, a directory for one, is a tree
of atomic actions. Where it runs to its end, `run` gives its result and the state it
leaves. Where its process may be killed, the state left behind is that after *some*
prefix of its actions, and `Stops` says which states these are. What must hold of the
state whoever stopped where is an invariant of `Stops`, and the rules at the end prove
one action by action.
-/

namespace JaxDas

/-- A program over the state `σ` raising `ε` and returning `α`. An action changes the
state at once, and what follows may depend on the state before it. -/
inductive Prog (σ ε α : Type) : Type
  | done (result : Except ε α)
  | act (op : σ → σ) (next : σ → Prog σ ε α)

namespace Prog

variable {σ ε α β : Type}

/-- The result, and the state left, of a program that is not stopped. -/
def run : Prog σ ε α → σ → Except ε α × σ
  | done r, s => (r, s)
  | act op next, s => (next s).run (op s)

/-- The states a program may leave when it stops before any of its actions, or at its end. -/
def Stops : Prog σ ε α → σ → σ → Prop
  | done _, s, t => t = s
  | act op next, s, t => t = s ∨ (next s).Stops (op s) t

protected def bind : Prog σ ε α → (α → Prog σ ε β) → Prog σ ε β
  | done (.ok a), f => f a
  | done (.error e), _ => done (.error e)
  | act op next, f => act op fun s => (next s).bind f

instance : Monad (Prog σ ε) where
  pure a := done (.ok a)
  bind := Prog.bind

/-- Raise. -/
def raise (e : ε) : Prog σ ε α := done (.error e)

/-- Look at the state: one action that changes nothing and may raise. -/
def look (f : σ → Except ε α) : Prog σ ε α := act id fun s => done (f s)

/-- Change the state. -/
def update (op : σ → σ) : Prog σ ε Unit := act op fun _ => done (.ok ())

/-- Change the state where a look at it does not raise. -/
def change (f : σ → Except ε α) (op : σ → σ) : Prog σ ε Unit :=
  act (fun s => match f s with | .ok _ => op s | .error _ => s) fun s => done ((f s).map fun _ => ())

/-! ## Runs -/

@[simp] theorem run_pure (a : α) (s : σ) : (pure a : Prog σ ε α).run s = (.ok a, s) := rfl

@[simp] theorem run_raise (e : ε) (s : σ) : (raise e : Prog σ ε α).run s = (.error e, s) := rfl

@[simp] theorem run_look (f : σ → Except ε α) (s : σ) : (look f).run s = (f s, s) := rfl

@[simp] theorem run_update (op : σ → σ) (s : σ) :
    (update op : Prog σ ε Unit).run s = (.ok (), op s) := rfl

theorem run_change_ok {f : σ → Except ε α} {op : σ → σ} {s : σ} {a : α} (h : f s = .ok a) :
    (change f op).run s = (.ok (), op s) := by
  simp only [change, run, h]
  rfl

/-- What is left when a change returned. -/
theorem of_run_change {f : σ → Except ε α} {op : σ → σ} {s t : σ} {u : Unit}
    (h : (change f op).run s = (.ok u, t)) : t = op s := by
  simp only [change, run] at h
  cases hf : f s with
  | ok a => exact (by simpa only [hf] using congrArg Prod.snd h.symm)
  | error e => rw [hf] at h; exact nomatch congrArg Prod.fst h

/-- A part that returns hands its value and its state to the rest. -/
theorem run_bind_ok {p : Prog σ ε α} {f : α → Prog σ ε β} {s t : σ} {a : α}
    (h : p.run s = (.ok a, t)) : (p >>= f).run s = (f a).run t := by
  change (p.bind f).run s = _
  induction p generalizing s with
  | done r =>
      rw [run, Prod.mk.injEq] at h
      obtain ⟨rfl, rfl⟩ := h
      rfl
  | act op next ih => exact ih s h

/-- The program is where its run ends when nothing stops it. -/
theorem stops_run (p : Prog σ ε α) (s : σ) : p.Stops s (p.run s).2 := by
  induction p generalizing s with
  | done r => rfl
  | act op next ih => exact .inr (ih s (op s))

theorem stops_start (p : Prog σ ε α) (s : σ) : p.Stops s s := by
  cases p with
  | done r => rfl
  | act op next => exact .inl rfl

theorem stops_change {f : σ → Except ε α} {op : σ → σ} {s t : σ} (h : (change f op).Stops s t) :
    t = s ∨ t = op s := by
  rcases h with h | h
  · exact .inl h
  · cases hf : f s with
    | ok a => exact .inr (by simpa only [Stops, hf] using h)
    | error e => exact .inl (by simpa only [Stops, hf] using h)

/-- A sequence stops in its first part, or in the second once the first has returned. -/
theorem stops_bind {p : Prog σ ε α} {f : α → Prog σ ε β} {s t : σ} (h : (p >>= f).Stops s t) :
    p.Stops s t ∨ ∃ a u, p.run s = (.ok a, u) ∧ (f a).Stops u t := by
  change (p.bind f).Stops s t at h
  induction p generalizing s with
  | done r =>
      cases r with
      | ok a => exact .inr ⟨a, s, rfl, h⟩
      | error e => exact .inl h
  | act op next ih =>
      rcases h with h | h
      · exact .inl (.inl h)
      · rcases ih s h with h | h
        · exact .inl (.inr h)
        · exact .inr h

/-! ## Invariants -/

/-- Wherever the program stops, `I` holds if it held at the start. -/
def Keeps (I : σ → Prop) (p : Prog σ ε α) : Prop := ∀ s t, p.Stops s t → I s → I t

variable {I : σ → Prop}

theorem Keeps.run {p : Prog σ ε α} (h : p.Keeps I) {s : σ} (hs : I s) : I (p.run s).2 :=
  h s _ (stops_run p s) hs

theorem keeps_done (r : Except ε α) : (done r).Keeps I := by
  intro s t h hs
  cases h
  exact hs

theorem keeps_pure (a : α) : (pure a : Prog σ ε α).Keeps I := keeps_done _

theorem keeps_raise (e : ε) : (raise e : Prog σ ε α).Keeps I := keeps_done _

theorem keeps_look (f : σ → Except ε α) : (look f).Keeps I := by
  intro s t h hs
  rcases h with h | h <;> exact h ▸ hs

theorem keeps_update {op : σ → σ} (h : ∀ s, I s → I (op s)) :
    (update op : Prog σ ε Unit).Keeps I := by
  intro s t ht hs
  rcases ht with ht | ht
  · exact ht ▸ hs
  · exact ht ▸ h s hs

theorem keeps_change {f : σ → Except ε α} {op : σ → σ} (h : ∀ s, I s → I (op s)) :
    (change f op).Keeps I := by
  intro s t ht hs
  rcases stops_change ht with rfl | rfl
  · exact hs
  · exact h s hs

theorem keeps_bind {p : Prog σ ε α} {f : α → Prog σ ε β} (hp : p.Keeps I)
    (hf : ∀ a, (f a).Keeps I) : (p >>= f).Keeps I := by
  intro s t h hs
  rcases stops_bind h with h | ⟨a, u, hrun, h⟩
  · exact hp s t h hs
  · have hu : I u := by simpa only [hrun] using hp.run hs
    exact hf a u t h hu

end Prog

end JaxDas
