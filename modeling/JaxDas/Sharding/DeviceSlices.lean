import JaxDas.Sharding.Indices

/-!
# The slices of the devices

Every device of the mesh is assigned, the slice of each has the number that its coordinates make, and
every element lies on as many devices as the unused axes have coordinates.
-/

namespace JaxDas.Sharding

/-! ## The loop over the devices -/

theorem assignLoop_ok {P : Type} : ∀ {ps : List P} {devices : List ℕ} {indices : List (Option P)},
    ps.length = devices.length → devices.Nodup → (∀ d ∈ devices, d < indices.length) →
    ∃ r, assignLoop ps devices indices = .ok r ∧ r.length = indices.length ∧
      (∀ (t v : ℕ) (p : P), devices[t]? = some v → ps[t]? = some p → r[v]? = some (some p)) ∧
      ∀ v : ℕ, v ∉ devices → r[v]? = indices[v]?
  | [], devices, indices, hlen, _, _ => by
      obtain rfl := List.eq_nil_of_length_eq_zero hlen.symm
      exact ⟨indices, rfl, rfl, fun t v p h => by simp at h, fun _ _ => rfl⟩
  | p :: ps, [], indices, hlen, _, _ => by simp at hlen
  | p :: ps, d :: devices, indices, hlen, hnd, hlt => by
      obtain ⟨hd, hnd⟩ := List.nodup_cons.mp hnd
      have hd' := hlt d List.mem_cons_self
      obtain ⟨r, hr, hrl, hat, helse⟩ := @assignLoop_ok _ ps devices (indices.set d (some p))
        (by simpa using hlen) hnd fun e he => by
          rw [List.length_set]; exact hlt e (List.mem_cons_of_mem _ he)
      refine ⟨r, by rw [assignLoop, if_pos hd', hr], by rw [hrl, List.length_set], ?_, ?_⟩
      · intro t v q hv hq
        cases t with
        | zero =>
            obtain rfl : d = v := by simpa using hv
            obtain rfl : p = q := by simpa using hq
            rw [helse d hd, List.getElem?_set_self hd']
        | succ t => exact hat t v q (by simpa using hv) (by simpa using hq)
      · intro v hv
        obtain ⟨hne, hv⟩ := not_or.mp (List.mem_cons.not.mp hv)
        rw [helse v hv, List.getElem?_set_ne (Ne.symm hne)]

/-- With every device in the list once, each gets its item, and nothing else is left. -/
theorem assignLoop_perm {P : Type} {ps : List P} {devices : List ℕ} {n : ℕ}
    (hperm : devices.Perm (List.range n)) (hlen : ps.length = n) :
    ∃ r, assignLoop ps devices (List.replicate n none) = .ok r ∧
      (∀ (t v : ℕ) (p : P), devices[t]? = some v → ps[t]? = some p → r[v]? = some (some p)) ∧
      r.Perm (ps.map some) := by
  have hdlen : devices.length = n := by rw [hperm.length_eq, List.length_range]
  obtain ⟨r, hr, hrl, hat, -⟩ := @assignLoop_ok _ ps devices (List.replicate n none)
    (hlen.trans hdlen.symm) (hperm.nodup_iff.mpr List.nodup_range) fun d hd => by
      rw [List.length_replicate]
      exact List.mem_range.mp (hperm.mem_iff.mp hd)
  rw [List.length_replicate] at hrl
  refine ⟨r, hr, hat, ?_⟩
  have hrange : r = (List.range n).map fun v => (r[v]?).getD none := by
    refine List.ext_getElem (by simp [hrl]) fun v hv _ => ?_
    simp [List.getElem?_eq_getElem hv]
  have hdevices : (devices.map fun v => (r[v]?).getD none) = ps.map some := by
    refine List.ext_getElem (by simp [hdlen, hlen]) fun t ht _ => ?_
    have ht' : t < devices.length := by simpa using ht
    have hps : t < ps.length := by omega
    simp only [List.getElem_map]
    rw [hat t _ _ (List.getElem?_eq_getElem ht') (List.getElem?_eq_getElem hps), Option.getD_some]
  rw [hrange]
  exact (hperm.map _).symm.trans (.of_eq hdevices)

/-! ## The slices of a dimension -/

/-- `n` slices of one length that follow each other. -/
structure Cuts (dim n : ℕ) (l : List Slice) : Prop where
  length : l.length = n
  slice : ∀ i < n, ∃ sl : Slice, l[i]? = some sl ∧ sl.bounds dim = (i * (dim / n), (i + 1) * (dim / n))

theorem axisIndices_ok {dim n : ℕ} (hn : 0 < n) (hdvd : n ∣ dim) :
    ∃ l, axisIndices dim n = .ok l ∧ Cuts dim n l := by
  unfold axisIndices
  by_cases h1 : n = 1
  · subst h1
    refine ⟨[.all], if_pos rfl, rfl, fun i hi => ?_⟩
    obtain rfl : i = 0 := by omega
    exact ⟨.all, rfl, by simp [Slice.bounds]⟩
  · rw [if_neg h1, if_pos (by omega), if_pos (Nat.mod_eq_zero_of_dvd hdvd)]
    refine ⟨_, rfl, by simp, fun i hi => ?_⟩
    rw [List.getElem?_map, List.getElem?_range hi]
    exact ⟨_, rfl, rfl⟩

theorem mapM_axisIndices : ∀ {shape parts : List ℕ},
    List.Forall₂ (fun dim n => 0 < n ∧ n ∣ dim) shape parts →
    ∃ ls, ((shape.zip parts).mapM fun p => axisIndices p.1 p.2) = .ok ls ∧
      List.Forall₂ (fun p l => Cuts p.1 p.2 l) (shape.zip parts) ls
  | _, _, .nil => ⟨[], rfl, .nil⟩
  | dim :: shape, n :: parts, .cons hn h => by
      obtain ⟨l, hl, hcuts⟩ := axisIndices_ok hn.1 hn.2
      obtain ⟨ls, hls, hall⟩ := mapM_axisIndices h
      refine ⟨l :: ls, ?_, .cons hcuts hall⟩
      rw [List.zip_cons_cons, List.mapM_cons, hl, hls]
      rfl

theorem lengths_of_cuts : ∀ {shape parts : List ℕ} {ls : List (List Slice)},
    shape.length = parts.length → List.Forall₂ (fun p l => Cuts p.1 p.2 l) (shape.zip parts) ls →
    ls.map List.length = parts
  | [], [], _, _, .nil => rfl
  | dim :: shape, n :: parts, l :: ls, hlen, .cons hl h => by
      rw [List.map_cons, hl.length, lengths_of_cuts (by simpa using hlen) h]

/-- The slices whose numbers are the digits. -/
theorem exists_slices : ∀ {shape parts idx : List ℕ} {ls : List (List Slice)},
    shape.length = parts.length → Within parts idx →
    List.Forall₂ (fun p l => Cuts p.1 p.2 l) (shape.zip parts) ls →
    ∃ xs, (product ls)[rowMajor parts idx]? = some xs ∧ xs.length = shape.length ∧
      ∀ d dim n i : ℕ, shape[d]? = some dim → parts[d]? = some n → idx[d]? = some i →
        ∃ sl : Slice, xs[d]? = some sl ∧ sl.bounds dim = (i * (dim / n), (i + 1) * (dim / n)) := by
  intro shape parts idx ls hlen hw hcuts
  have hex : ∃ xs, List.Forall₂ (fun (li : List Slice × ℕ) x => li.1[li.2]? = some x)
      (ls.zip idx) xs ∧ xs.length = shape.length ∧
      ∀ d dim n i : ℕ, shape[d]? = some dim → parts[d]? = some n → idx[d]? = some i →
        ∃ sl : Slice, xs[d]? = some sl ∧ sl.bounds dim = (i * (dim / n), (i + 1) * (dim / n)) := by
    induction hw generalizing shape ls with
    | nil =>
        obtain rfl := List.eq_nil_of_length_eq_zero hlen
        cases hcuts
        exact ⟨[], .nil, rfl, fun d dim n i h => by simp at h⟩
    | @cons i n idx parts hi _ ih =>
        cases shape with
        | nil => simp at hlen
        | cons dim shape =>
            cases hcuts with
            | cons hl hcuts =>
                obtain ⟨xs, hxs, hxl, hall⟩ := ih (by simpa using hlen) hcuts
                obtain ⟨sl, hsl, hb⟩ := hl.slice i hi
                refine ⟨sl :: xs, .cons hsl hxs, by simp [hxl], ?_⟩
                intro d dim' n' i' hdim hn hi'
                cases d with
                | zero =>
                    obtain rfl : dim = dim' := by simpa using hdim
                    obtain rfl : n = n' := by simpa using hn
                    obtain rfl : i = i' := by simpa using hi'
                    exact ⟨sl, rfl, hb⟩
                | succ d =>
                    exact hall d dim' n' i' (by simpa using hdim) (by simpa using hn)
                      (by simpa using hi')
  obtain ⟨xs, hxs, hxl, hall⟩ := hex
  have hl := lengths_of_cuts hlen hcuts
  have hidx : idx.length = ls.length := by
    rw [hw.length_eq, ← hl, List.length_map]
  have hget := getElem?_product hidx hxs
  rw [hl] at hget
  exact ⟨xs, hget, hxl, hall⟩

/-! ## On how many devices an element is -/

def Slice.holds (dim x : ℕ) (sl : Slice) : Bool := (sl.bounds dim).1 ≤ x ∧ x < (sl.bounds dim).2

/-- The element `x` of an array is in the part that the slices cut out. -/
def holdsAll : (shape x : List ℕ) → List Slice → Bool
  | dim :: shape, x :: xs, sl :: sls => sl.holds dim x && holdsAll shape xs sls
  | [], [], [] => true
  | _, _, _ => false

/-- The element is on a device with these slices; a device that was not assigned has none. -/
def onDevice (shape x : List ℕ) : Option (List Slice) → Bool
  | some sls => holdsAll shape x sls
  | none => false

theorem countP_cuts {dim n x : ℕ} {l : List Slice} (h : Cuts dim n l) (hdvd : n ∣ dim)
    (hx : x < dim) : l.countP (Slice.holds dim x) = 1 := by
  obtain ⟨k, rfl⟩ := hdvd
  have hn : 0 < n := by
    rcases Nat.eq_zero_or_pos n with rfl | h
    · omega
    · exact h
  have hk : 0 < k := by
    rcases Nat.eq_zero_or_pos k with rfl | h
    · omega
    · exact h
  have hdiv : n * k / n = k := Nat.mul_div_cancel_left k hn
  -- the slice `i` has the element exactly if `i` is the quotient
  have hholds : l.map (Slice.holds (n * k) x) = (List.range n).map fun i => i == x / k := by
    refine List.ext_getElem (by simp [h.length]) fun i hi _ => ?_
    have hi : i < l.length := by simpa using hi
    obtain ⟨sl, hsl, hb⟩ := h.slice i (h.length ▸ hi)
    have hget : l[i] = sl :=
      Option.some.inj ((List.getElem?_eq_getElem _).symm.trans hsl)
    rw [hdiv] at hb
    simp only [List.getElem_map, List.getElem_range, hget, Slice.holds, hb]
    rw [Bool.eq_iff_iff, decide_eq_true_iff, beq_iff_eq, ← Nat.div_lt_iff_lt_mul hk,
      ← Nat.le_div_iff_mul_le hk]
    omega
  have hcount : l.countP (Slice.holds (n * k) x) = (l.map (Slice.holds (n * k) x)).count true := by
    rw [List.count, List.countP_map]
    exact List.countP_congr fun a _ => by simp
  have hrange : ((List.range n).map fun i => i == x / k).count true =
      (List.range n).count (x / k) := by
    rw [List.count, List.count, List.countP_map]
    exact List.countP_congr fun a _ => by simp
  rw [hcount, hholds, hrange]
  refine List.count_eq_one_of_mem List.nodup_range (List.mem_range.mpr ?_)
  rw [Nat.div_lt_iff_lt_mul hk]
  exact hx

theorem countP_flatMap_const {α β : Type} {f : α → List β} {p : β → Bool} {q : α → Bool} {n : ℕ} :
    ∀ {l : List α}, (∀ a ∈ l, (f a).countP p = if q a then n else 0) →
      (l.flatMap f).countP p = l.countP q * n
  | [], _ => by simp
  | a :: l, h => by
      have ih := countP_flatMap_const (l := l) fun b hb => h b (List.mem_cons_of_mem _ hb)
      rw [List.flatMap_cons, List.countP_append, ih, h a List.mem_cons_self, List.countP_cons]
      split <;> simp [Nat.add_mul, Nat.add_comm]

/-- An element is in one of the parts that the slices cut an array into. -/
theorem countP_product : ∀ {shape parts x : List ℕ} {ls : List (List Slice)},
    Within shape x → List.Forall₂ (fun dim n => 0 < n ∧ n ∣ dim) shape parts →
    List.Forall₂ (fun p l => Cuts p.1 p.2 l) (shape.zip parts) ls →
    (product ls).countP (holdsAll shape x) = 1
  | _, _, _, _, .nil, .nil, .nil => rfl
  | dim :: shape, n :: parts, x :: xs, l :: ls, .cons hx hw, .cons hn hparts, .cons hl hls => by
      have ih := countP_product hw hparts hls
      have hone := countP_cuts hl hn.2 hx
      rw [product, countP_flatMap_const (n := 1) (q := Slice.holds dim x), hone]
      intro sl _
      rw [List.countP_map]
      cases hsl : sl.holds dim x with
      | true =>
          rw [if_pos rfl, ← ih]
          exact List.countP_congr fun a _ => by simp [holdsAll, hsl]
      | false =>
          simp only [Bool.false_eq_true, if_false, List.countP_eq_zero]
          exact fun a _ => by simp [holdsAll, hsl]

end JaxDas.Sharding
