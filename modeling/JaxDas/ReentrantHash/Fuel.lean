import JaxDas.ReentrantHash.Table

/-!
# More fuel does not change a result

So an operation has one result, whatever fuel it was found with.
-/

namespace JaxDas.ReentrantHash

variable {Key : Type} {W : ℕ} {hash : Key → ℕ} {T : Table Key} {fuel fuel' : ℕ}

theorem scan_mono {x : ℕ} : ∀ {fuel fuel' : ℕ} {f : Frame} {p : Pause},
    T.scan W x fuel f = some p → fuel ≤ fuel' → T.scan W x fuel' f = some p
  | 0, _, _, _, h, _ => nomatch h
  | fuel + 1, 0, _, _, _, hle => absurd hle (by omega)
  | fuel + 1, fuel' + 1, f, p, h, hle => by
      rw [Table.scan] at h ⊢
      cases hv : T.visit W x f with
      | inl p' => rwa [hv] at h
      | inr f' =>
          rw [hv] at h
          exact scan_mono h (by omega)

theorem findFree_mono : ∀ {fuel fuel' curr step idx : ℕ},
    T.findFree W fuel curr step = some idx → fuel ≤ fuel' →
    T.findFree W fuel' curr step = some idx
  | 0, _, _, _, _, h, _ => nomatch h
  | fuel + 1, 0, _, _, _, _, hle => absurd hle (by omega)
  | fuel + 1, fuel' + 1, curr, step, idx, h, hle => by
      rw [Table.findFree] at h ⊢
      cases hg : T.groupEmptyOrDeleted W curr with
      | some o => rwa [hg] at h
      | none =>
          rw [hg] at h
          exact findFree_mono h (by omega)

variable (hle : fuel ≤ fuel')

include hle

theorem rehashLoop_mono {old : Table Key} : ∀ {l : List ℕ} {T T' : Table Key},
    old.rehashLoop W hash fuel l T = some T' → old.rehashLoop W hash fuel' l T = some T'
  | [], _, _, h => h
  | i :: l, T, T', h => by
      rw [Table.rehashLoop] at h ⊢
      split at h
      · rename_i b key _ _
        cases hf : T.findFree W fuel (h1 (hash key) % T.capacity) 0 with
        | none => rw [hf] at h; exact nomatch h
        | some idx =>
            rw [hf] at h
            rw [findFree_mono hf hle]
            exact rehashLoop_mono h
      · exact nomatch h
      · exact rehashLoop_mono h

theorem advance_mono {op : Op Key} {version : ℕ} {f : Frame} {out : Table Key × Outcome}
    (h : op.advance W fuel T version f = some out) : op.advance W fuel' T version f = some out := by
  rw [Op.advance] at h ⊢
  cases hs : T.scan W op.query.hash fuel f with
  | none => rw [hs] at h; exact nomatch h
  | some p =>
      rw [hs] at h
      rwa [scan_mono hs hle]

theorem attempt_mono {op : Op Key} {out : Table Key × Outcome}
    (h : op.attempt W hash fuel T = some out) : op.attempt W hash fuel' T = some out := by
  cases op with
  | find q =>
      simp only [Op.attempt] at h ⊢
      split at h
      · rwa [if_pos ‹_›]
      · rw [if_neg ‹_›]
        exact advance_mono hle h
  | tryEmplace q made =>
      simp only [Op.attempt] at h ⊢
      split at h
      · rw [if_pos ‹_›]
        cases hr : T.rehash W hash fuel T.newCapacity with
        | none => rw [hr] at h; exact nomatch h
        | some T' =>
            rw [hr] at h
            have hr' : T.rehash W hash fuel' T.newCapacity = some T' := rehashLoop_mono hle hr
            rw [hr']
            exact advance_mono hle h
      · rw [if_neg ‹_›]
        exact advance_mono hle h

theorem resume_mono {op : Op Key} {c : Compare} {out : Table Key × Outcome}
    (h : op.resume W hash fuel T c = some out) : op.resume W hash fuel' T c = some out := by
  rw [Op.resume] at h ⊢
  split at h
  · rw [if_pos ‹_›]
    exact attempt_mono hle h
  · rw [if_neg ‹_›]
    cases hs : T.slots c.idx with
    | none => rw [hs] at h; exact nomatch h
    | some key =>
        rw [hs] at h
        simp only at h ⊢
        split at h
        · rwa [if_pos ‹_›]
        · rw [if_neg ‹_›]
          exact advance_mono hle h

theorem drive_mono {op : Op Key} : ∀ {n n' : ℕ} {out : Table Key × Outcome}
    {res : Table Key × Result}, op.drive W hash fuel n out = some res → n ≤ n' →
    op.drive W hash fuel' n' out = some res
  | n, n', (T, .returned r), res, h, _ => by
      cases n <;> cases n' <;> exact h
  | 0, _, (_, .compare _), _, h, _ => nomatch h
  | n + 1, 0, (_, .compare _), _, _, hn => absurd hn (by omega)
  | n + 1, n' + 1, (T, .compare c), res, h, hn => by
      rw [Op.drive] at h ⊢
      cases hr : op.resume W hash fuel T c with
      | none => rw [hr] at h; exact nomatch h
      | some out =>
          rw [hr] at h
          rw [resume_mono hle hr]
          exact drive_mono h (by omega)

theorem run_mono {op : Op Key} {res : Table Key × Result} (h : op.run W hash fuel T = some res) :
    op.run W hash fuel' T = some res := by
  rw [Op.run] at h ⊢
  cases ha : op.attempt W hash fuel T with
  | none => rw [ha] at h; exact nomatch h
  | some out =>
      rw [ha] at h
      rw [attempt_mono hle ha]
      exact drive_mono hle h hle

end JaxDas.ReentrantHash
