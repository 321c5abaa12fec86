import JaxDas.Lib.Related
import JaxDas.SourceMap.Mappings

/-!
# What the decoder makes of a piece of a line

A quantity is a run of digits with `VLQ_MORE_MASK` and one without. Every piece begins with some
quantities; after them it ends, ends within a quantity, or has a byte that is no digit. How many
there are decides whether `decode_segment` returns, raises, or runs out of bytes.
-/

namespace JaxDas.SourceMap

open Related

/-- A digit after which there is more. -/
def More (c : UInt8) : Prop := ∃ d, vlqDecodeTable c = some d ∧ d &&& 0x20 ≠ 0

/-- The last digit of a quantity. -/
def Last (c : UInt8) : Prop := ∃ d, vlqDecodeTable c = some d ∧ d &&& 0x20 = 0

/-- The bytes of one quantity. -/
def IsVlq (enc : List UInt8) : Prop := ∃ cont c, enc = cont ++ [c] ∧ (∀ c ∈ cont, More c) ∧ Last c

/-- A quantity that is not ended. -/
def Unended (enc : List UInt8) : Prop := ∀ c ∈ enc, More c

/-- A quantity with a byte that is no digit. -/
def Bad (enc : List UInt8) : Prop := ∃ cont c rest, enc = cont ++ c :: rest ∧ (∀ c ∈ cont, More c) ∧
  vlqDecodeTable c = none

/-! ### One quantity -/

theorem decodeMore_last_digit {c : UInt8} (hc : Last c) :
    ∀ {cont : List UInt8}, (∀ c ∈ cont, More c) → ∀ {d shift value : ℕ}, d &&& 0x20 ≠ 0 →
      ∃ v, ∀ rest, decodeMore d shift value (cont ++ c :: rest) = .ok (v, rest)
  | [], _, d, shift, value, hd => by
      obtain ⟨n, hn, hlast⟩ := hc
      refine ⟨value ||| (n &&& 0x1F) <<< shift, fun rest => ?_⟩
      rw [List.nil_append, decodeMore, if_pos hd]
      simp only [hn]
      exact decodeMore_last hlast _ _ _
  | b :: cont, hcont, d, shift, value, hd => by
      obtain ⟨n, hn, hmore⟩ := hcont b List.mem_cons_self
      obtain ⟨v, hv⟩ := @decodeMore_last_digit _ hc cont
        (fun c hc => hcont c (List.mem_cons_of_mem _ hc)) n (shift + 5)
        (value ||| (n &&& 0x1F) <<< shift) hmore
      refine ⟨v, fun rest => ?_⟩
      rw [List.cons_append, decodeMore, if_pos hd]
      simp only [hn]
      exact hv rest

theorem decodeMore_unended : ∀ {enc : List UInt8}, Unended enc → ∀ {d shift value : ℕ},
    d &&& 0x20 ≠ 0 → decodeMore d shift value enc = .error .stopIteration
  | [], _, d, shift, value, hd => by rw [decodeMore, if_pos hd]
  | b :: enc, henc, d, shift, value, hd => by
      obtain ⟨n, hn, hmore⟩ := henc b List.mem_cons_self
      rw [decodeMore, if_pos hd]
      simp only [hn]
      exact decodeMore_unended (fun c hc => henc c (List.mem_cons_of_mem _ hc)) hmore

theorem decodeMore_bad {c : UInt8} (hc : vlqDecodeTable c = none) (rest : List UInt8) :
    ∀ {cont : List UInt8}, (∀ c ∈ cont, More c) → ∀ {d shift value : ℕ}, d &&& 0x20 ≠ 0 →
      decodeMore d shift value (cont ++ c :: rest) = .error .typeError
  | [], _, d, shift, value, hd => by
      rw [List.nil_append, decodeMore, if_pos hd]
      simp only [hc]
  | b :: cont, hcont, d, shift, value, hd => by
      obtain ⟨n, hn, hmore⟩ := hcont b List.mem_cons_self
      rw [List.cons_append, decodeMore, if_pos hd]
      simp only [hn]
      exact decodeMore_bad hc rest (fun c hc => hcont c (List.mem_cons_of_mem _ hc)) hmore

/-- A quantity is read to its end. -/
theorem decodeVlq_isVlq {enc : List UInt8} (h : IsVlq enc) :
    ∃ v, ∀ rest, decodeVlq (enc ++ rest) = .ok (v, rest) := by
  obtain ⟨cont, c, rfl, hcont, hc⟩ := h
  cases cont with
  | nil =>
      obtain ⟨n, hn, hlast⟩ := hc
      refine ⟨if n &&& 0x01 ≠ 0 then -(((n &&& 0x1F) >>> 1 : ℕ) : ℤ) else ((n &&& 0x1F) >>> 1 : ℕ),
        fun rest => ?_⟩
      rw [List.nil_append, List.singleton_append, decodeVlq]
      simp only [hn, decodeMore_last hlast]
      rfl
  | cons b cont =>
      obtain ⟨n, hn, hmore⟩ := hcont b List.mem_cons_self
      obtain ⟨v, hv⟩ := @decodeMore_last_digit _ hc cont
        (fun c hc => hcont c (List.mem_cons_of_mem _ hc)) n 4 ((n &&& 0x1F) >>> 1) hmore
      refine ⟨if n &&& 0x01 ≠ 0 then -(v : ℤ) else v, fun rest => ?_⟩
      rw [List.append_assoc, List.cons_append, decodeVlq]
      simp only [hn, List.singleton_append, hv rest]
      rfl

theorem decodeVlq_unended {enc : List UInt8} (h : Unended enc) :
    decodeVlq enc = .error .stopIteration := by
  cases enc with
  | nil => rfl
  | cons b enc =>
      obtain ⟨n, hn, hmore⟩ := h b List.mem_cons_self
      rw [decodeVlq]
      simp only [hn, decodeMore_unended (fun c hc => h c (List.mem_cons_of_mem _ hc)) hmore]
      rfl

theorem decodeVlq_bad {enc : List UInt8} (h : Bad enc) : decodeVlq enc = .error .typeError := by
  obtain ⟨cont, c, rest, rfl, hcont, hc⟩ := h
  cases cont with
  | nil =>
      rw [List.nil_append, decodeVlq]
      simp only [hc]
  | cons b cont =>
      obtain ⟨n, hn, hmore⟩ := hcont b List.mem_cons_self
      rw [List.cons_append, decodeVlq]
      simp only [hn, decodeMore_bad hc rest (fun c hc => hcont c (List.mem_cons_of_mem _ hc)) hmore]
      rfl

/-- What bytes begin with. -/
theorem vlq_cases : ∀ enc : List UInt8,
    (∃ vlq rest, enc = vlq ++ rest ∧ IsVlq vlq) ∨ Unended enc ∨ Bad enc
  | [] => .inr (.inl nofun)
  | c :: enc => by
      cases hd : vlqDecodeTable c with
      | none => exact .inr (.inr ⟨[], c, enc, rfl, nofun, hd⟩)
      | some d =>
          by_cases hmore : d &&& 0x20 = 0
          · exact .inl ⟨[c], enc, rfl, [], c, rfl, nofun, d, hd, hmore⟩
          · have hc : More c := ⟨d, hd, hmore⟩
            rcases vlq_cases enc with ⟨vlq, rest, rfl, cont, l, rfl, hcont, hl⟩ | h | h
            · refine .inl ⟨c :: (cont ++ [l]), rest, rfl, c :: cont, l, rfl, ?_, hl⟩
              exact List.forall_mem_cons.mpr ⟨hc, hcont⟩
            · exact .inr (.inl (List.forall_mem_cons.mpr ⟨hc, h⟩))
            · obtain ⟨cont, l, rest, rfl, hcont, hl⟩ := h
              exact .inr (.inr ⟨c :: cont, l, rest, rfl, List.forall_mem_cons.mpr ⟨hc, hcont⟩, hl⟩)

/-- A quantity is what the decoder reads to the end. -/
theorem isVlq_of_decodeVlq {enc : List UInt8} {v : ℤ} (h : decodeVlq enc = .ok (v, [])) :
    IsVlq enc := by
  rcases vlq_cases enc with ⟨vlq, rest, rfl, hvlq⟩ | hunended | hbad
  · obtain ⟨w, hw⟩ := decodeVlq_isVlq hvlq
    rw [hw rest] at h
    obtain rfl : rest = [] := (Prod.mk.inj (Except.ok.inj h)).2
    rwa [List.append_nil]
  · rw [decodeVlq_unended hunended] at h
    cases h
  · rw [decodeVlq_bad hbad] at h
    cases h

/-! ### Pieces -/

/-- Quantities, and the bytes after them. -/
structure Reads (enc : List UInt8) (vlqs : List (List UInt8)) (tail : List UInt8) : Prop where
  eq : enc = vlqs.flatten ++ tail
  vlqs : ∀ vlq ∈ vlqs, IsVlq vlq

/-- A piece of 1, 4 or 5 quantities. -/
def WellFormed (enc : List UInt8) : Prop :=
  ∃ vlqs, Reads enc vlqs [] ∧ (vlqs.length = 1 ∨ vlqs.length = 4 ∨ vlqs.length = 5)

/-- A piece whose bytes run out before the first, the third or the fourth field. -/
def Stops (enc : List UInt8) : Prop :=
  ∃ vlqs tail, Reads enc vlqs tail ∧ Unended tail ∧
    (vlqs.length = 0 ∨ vlqs.length = 2 ∨ vlqs.length = 3)

/-- A piece with a byte in its first five fields that is no digit. -/
def ReadsBad (enc : List UInt8) : Prop :=
  ∃ vlqs tail, Reads enc vlqs tail ∧ Bad tail ∧ vlqs.length ≤ 4

/-- The first quantities of a piece, up to a number of them. -/
theorem reads_cases : ∀ (n : ℕ) (enc : List UInt8), ∃ vlqs tail, Reads enc vlqs tail ∧
    (vlqs.length = n ∨ vlqs.length < n ∧ (Unended tail ∨ Bad tail))
  | 0, enc => ⟨[], enc, ⟨rfl, nofun⟩, .inl rfl⟩
  | n + 1, enc => by
      rcases vlq_cases enc with ⟨vlq, rest, rfl, hvlq⟩ | htail
      · obtain ⟨vlqs, tail, hreads, hlen⟩ := reads_cases n rest
        refine ⟨vlq :: vlqs, tail, ⟨?_, List.forall_mem_cons.mpr ⟨hvlq, hreads.vlqs⟩⟩, ?_⟩
        · rw [List.flatten_cons, List.append_assoc, ← hreads.eq]
        · rw [List.length_cons]
          exact hlen.imp (congrArg (· + 1)) (And.imp_left Nat.succ_lt_succ)
      · exact ⟨[], enc, ⟨rfl, nofun⟩, .inr ⟨Nat.succ_pos n, htail⟩⟩

theorem Reads.next {enc vlq tail : List UInt8} {vlqs : List (List UInt8)}
    (h : Reads enc (vlq :: vlqs) tail) : ∃ v rest, decodeVlq enc = .ok (v, rest) ∧
      decodeVlq vlq = .ok (v, []) ∧ Reads rest vlqs tail := by
  obtain ⟨hvlq, hvlqs⟩ := List.forall_mem_cons.mp h.vlqs
  obtain ⟨v, hv⟩ := decodeVlq_isVlq hvlq
  refine ⟨v, vlqs.flatten ++ tail, ?_, ?_, rfl, hvlqs⟩
  · rw [h.eq, List.flatten_cons, List.append_assoc]
    exact hv _
  · have := hv []
    rwa [List.append_nil] at this

/-- A segment that accounts for all bytes of a piece: each field is one of its quantities. -/
def Accounts (seg : Segment) (enc : List UInt8) : Prop :=
  ∃ vlqs : List (List UInt8), enc = vlqs.flatten ∧
    List.Forall₂ (fun vlq v => decodeVlq vlq = .ok (v, [])) vlqs seg.fields

theorem Accounts.wellFormed {seg : Segment} {enc : List UInt8} (h : Accounts seg enc) :
    WellFormed enc := by
  obtain ⟨vlqs, rfl, hfields⟩ := h
  refine ⟨vlqs, ⟨(List.append_nil _).symm, fun vlq hvlq => ?_⟩, ?_⟩
  · obtain ⟨i, hi, rfl⟩ := List.getElem_of_mem hvlq
    exact isVlq_of_decodeVlq (hfields.get hi (by rw [← hfields.length_eq]; exact hi))
  · rw [hfields.length_eq]
    cases seg with
    | one => exact .inl rfl
    | four => exact .inr (.inl rfl)
    | five => exact .inr (.inr rfl)

/-- A segment is returned after the first, the fourth and the fifth quantity. -/
theorem decodeSegment_returns {enc tail : List UInt8} {vlqs : List (List UInt8)}
    (hreads : Reads enc vlqs tail)
    (h : vlqs.length = 5 ∨ (vlqs.length = 1 ∨ vlqs.length = 4) ∧ Unended tail) :
    ∃ seg rest, decodeSegment enc = .ok (seg, rest) ∧
      List.Forall₂ (fun vlq v => decodeVlq vlq = .ok (v, [])) vlqs seg.fields := by
  rcases h with hlen | ⟨hlen | hlen, htail⟩
  · obtain ⟨a, b, c, d, e, rfl⟩ : ∃ a b c d e, vlqs = [a, b, c, d, e] := by
      rcases vlqs with _ | ⟨a, _ | ⟨b, _ | ⟨c, _ | ⟨d, _ | ⟨e, _ | ⟨f, vlqs⟩⟩⟩⟩⟩⟩ <;>
        simp at hlen ⊢
    obtain ⟨col, rest, hcol, ha, hreads⟩ := hreads.next
    obtain ⟨source, rest, hsource, hb, hreads⟩ := hreads.next
    obtain ⟨line, rest, hline, hc, hreads⟩ := hreads.next
    obtain ⟨scol, rest, hscol, hd, hreads⟩ := hreads.next
    obtain ⟨name, rest, hname, he, hreads⟩ := hreads.next
    refine ⟨.five col source line scol name, rest, ?_,
      .cons ha (.cons hb (.cons hc (.cons hd (.cons he .nil))))⟩
    simp only [decodeSegment, hcol, ok_bind, hsource, hline, hscol, hname]
    rfl
  · have hend := decodeVlq_unended htail
    obtain ⟨a, rfl⟩ := List.length_eq_one_iff.mp hlen
    obtain ⟨col, rest, hcol, ha, hreads⟩ := hreads.next
    obtain rfl : rest = tail := hreads.eq
    refine ⟨.one col, [], ?_, .cons ha .nil⟩
    simp only [decodeSegment, hcol, ok_bind, hend]
    rfl
  · have hend := decodeVlq_unended htail
    obtain ⟨a, b, c, d, rfl⟩ : ∃ a b c d, vlqs = [a, b, c, d] := by
      rcases vlqs with _ | ⟨a, _ | ⟨b, _ | ⟨c, _ | ⟨d, _ | ⟨e, vlqs⟩⟩⟩⟩⟩ <;> simp at hlen ⊢
    obtain ⟨col, rest, hcol, ha, hreads⟩ := hreads.next
    obtain ⟨source, rest, hsource, hb, hreads⟩ := hreads.next
    obtain ⟨line, rest, hline, hc, hreads⟩ := hreads.next
    obtain ⟨scol, rest, hscol, hd, hreads⟩ := hreads.next
    obtain rfl : rest = tail := hreads.eq
    refine ⟨.four col source line scol, [], ?_, .cons ha (.cons hb (.cons hc (.cons hd .nil)))⟩
    simp only [decodeSegment, hcol, ok_bind, hsource, hline, hscol, hend]
    rfl

/-- A piece of 1, 4 or 5 quantities is decoded to a segment that accounts for it. -/
theorem decodeSegment_wellFormed {enc : List UInt8} (h : WellFormed enc) :
    ∃ seg rest, decodeSegment enc = .ok (seg, rest) ∧ Accounts seg enc := by
  obtain ⟨vlqs, hreads, hlen⟩ := h
  have hunended : Unended [] := nofun
  obtain ⟨seg, rest, hseg, hfields⟩ := decodeSegment_returns hreads (by
    rcases hlen with hlen | hlen | hlen
    · exact .inr ⟨.inl hlen, hunended⟩
    · exact .inr ⟨.inr hlen, hunended⟩
    · exact .inl hlen)
  exact ⟨seg, rest, hseg, vlqs, hreads.eq.trans (List.append_nil _), hfields⟩

/-- Where the bytes run out before a field that a segment needs, `StopIteration` is raised. -/
theorem decodeSegment_stops {enc : List UInt8} (h : Stops enc) :
    decodeSegment enc = .error .stopIteration := by
  obtain ⟨vlqs, tail, hreads, htail, hlen⟩ := h
  have hend := decodeVlq_unended htail
  rcases hlen with hlen | hlen | hlen
  · obtain rfl := List.eq_nil_of_length_eq_zero hlen
    obtain rfl : enc = tail := hreads.eq
    rw [decodeSegment, hend]
    rfl
  · obtain ⟨a, b, rfl⟩ := List.length_eq_two.mp hlen
    obtain ⟨col, rest, hcol, -, hreads⟩ := hreads.next
    obtain ⟨source, rest, hsource, -, hreads⟩ := hreads.next
    obtain rfl : rest = tail := hreads.eq
    simp only [decodeSegment, hcol, ok_bind, hsource, hend]
    rfl
  · obtain ⟨a, b, c, rfl⟩ := List.length_eq_three.mp hlen
    obtain ⟨col, rest, hcol, -, hreads⟩ := hreads.next
    obtain ⟨source, rest, hsource, -, hreads⟩ := hreads.next
    obtain ⟨line, rest, hline, -, hreads⟩ := hreads.next
    obtain rfl : rest = tail := hreads.eq
    simp only [decodeSegment, hcol, ok_bind, hsource, hline, hend]
    rfl

/-- A byte that is no digit is an error wherever it is read. -/
theorem decodeSegment_bad {enc : List UInt8} (h : ReadsBad enc) :
    decodeSegment enc = .error .typeError := by
  obtain ⟨vlqs, tail, hreads, htail, hlen⟩ := h
  have hbad := decodeVlq_bad htail
  -- the quantities before it, one field each
  rcases vlqs with _ | ⟨a, vlqs⟩
  · obtain rfl : enc = tail := hreads.eq
    rw [decodeSegment, hbad]
    rfl
  obtain ⟨col, rest, hcol, -, hreads⟩ := hreads.next
  rcases vlqs with _ | ⟨b, vlqs⟩
  · obtain rfl : rest = tail := hreads.eq
    simp only [decodeSegment, hcol, ok_bind, hbad]
    rfl
  obtain ⟨source, rest, hsource, -, hreads⟩ := hreads.next
  rcases vlqs with _ | ⟨c, vlqs⟩
  · obtain rfl : rest = tail := hreads.eq
    simp only [decodeSegment, hcol, ok_bind, hsource, hbad]
    rfl
  obtain ⟨line, rest, hline, -, hreads⟩ := hreads.next
  rcases vlqs with _ | ⟨d, vlqs⟩
  · obtain rfl : rest = tail := hreads.eq
    simp only [decodeSegment, hcol, ok_bind, hsource, hline, hbad]
    rfl
  obtain ⟨scol, rest, hscol, -, hreads⟩ := hreads.next
  obtain rfl : vlqs = [] := List.eq_nil_of_length_eq_zero (by
    simp only [List.length_cons] at hlen
    omega)
  obtain rfl : rest = tail := hreads.eq
  simp only [decodeSegment, hcol, ok_bind, hsource, hline, hscol, hbad]
  rfl

/-- What `decode_segment` does with every piece. -/
theorem decodeSegment_cases (enc : List UInt8) : Stops enc ∨ ReadsBad enc ∨
    ∃ seg rest, decodeSegment enc = .ok (seg, rest) := by
  obtain ⟨vlqs, tail, hreads, hlen | ⟨hlen, htail | htail⟩⟩ := reads_cases 5 enc
  · obtain ⟨seg, rest, hseg, -⟩ := decodeSegment_returns hreads (.inl hlen)
    exact .inr (.inr ⟨seg, rest, hseg⟩)
  · by_cases hreturns : vlqs.length = 1 ∨ vlqs.length = 4
    · obtain ⟨seg, rest, hseg, -⟩ := decodeSegment_returns hreads (.inr ⟨hreturns, htail⟩)
      exact .inr (.inr ⟨seg, rest, hseg⟩)
    · exact .inl ⟨vlqs, tail, hreads, htail, by omega⟩
  · exact .inr (.inl ⟨vlqs, tail, hreads, htail, by omega⟩)

/-! ### Lines -/

/-- A line with a byte that is read and is no digit: no piece before it runs out of bytes. -/
def LineReadsBad (pieces : List (List UInt8)) : Prop :=
  ∃ before enc after, pieces = before ++ enc :: after ∧ (∀ enc ∈ before, ¬ Stops enc) ∧ ReadsBad enc

/-- A line is an error if such a byte is read in it. -/
theorem decodeSegments_error_iff : ∀ {pieces : List (List UInt8)},
    (∃ e, decodeSegments pieces = .error e) ↔ LineReadsBad pieces
  | [] => by
      refine iff_of_false ?_ ?_
      · rintro ⟨e, h⟩
        cases h
      · rintro ⟨before, enc, after, h, -⟩
        simp at h
  | enc :: encs => by
      have hlater : ∀ {before : List (List UInt8)} {enc' : List UInt8} {after : List (List UInt8)},
          enc :: encs = before ++ enc' :: after → ¬ ReadsBad enc → ReadsBad enc' →
          (∀ enc ∈ before, ¬ Stops enc) → LineReadsBad encs ∧ ¬ Stops enc := by
        intro before enc' after h hnot hbad hbefore
        cases before with
        | nil =>
            injection h with h _
            exact absurd (h ▸ hbad) hnot
        | cons b before =>
            injection h with h htail
            obtain ⟨hb, hbefore⟩ := List.forall_mem_cons.mp hbefore
            exact ⟨⟨before, enc', after, htail, hbefore, hbad⟩, h ▸ hb⟩
      rw [decodeSegments]
      rcases decodeSegment_cases enc with hstops | hbad | ⟨seg, rest, hseg⟩
      · rw [decodeSegment_stops hstops]
        have hnot : ¬ ReadsBad enc := by
          intro hbad
          have := (decodeSegment_stops hstops).symm.trans (decodeSegment_bad hbad)
          cases this
        refine iff_of_false ?_ ?_
        · rintro ⟨e, h⟩
          cases h
        · rintro ⟨before, enc', after, h, hbefore, hbad⟩
          exact (hlater h hnot hbad hbefore).2 hstops
      · rw [decodeSegment_bad hbad]
        exact iff_of_true ⟨_, rfl⟩ ⟨[], enc, encs, rfl, List.forall_mem_nil _, hbad⟩
      · rw [hseg]
        have hnot : ¬ ReadsBad enc := by
          intro hbad
          rw [decodeSegment_bad hbad] at hseg
          cases hseg
        have hstops : ¬ Stops enc := by
          intro hstops
          rw [decodeSegment_stops hstops] at hseg
          cases hseg
        have ih := @decodeSegments_error_iff encs
        constructor
        · rintro ⟨e, h⟩
          cases hencs : decodeSegments encs with
          | error e' =>
              obtain ⟨before, enc', after, rfl, hbefore, hbad⟩ := ih.mp ⟨e', hencs⟩
              exact ⟨enc :: before, enc', after, rfl,
                List.forall_mem_cons.mpr ⟨hstops, hbefore⟩, hbad⟩
          | ok segs =>
              rw [hencs] at h
              cases h
        · rintro ⟨before, enc', after, h, hbefore, hbad⟩
          obtain ⟨e, he⟩ := ih.mpr (hlater h hnot hbad hbefore).1
          exact ⟨e, by rw [he]; rfl⟩

/-- Well-formed pieces are all decoded. -/
theorem decodeSegments_wellFormed : ∀ {pieces : List (List UInt8)}, (∀ enc ∈ pieces, WellFormed enc) →
    ∃ segs, decodeSegments pieces = .ok segs ∧ List.Forall₂ Accounts segs pieces
  | [], _ => ⟨[], rfl, .nil⟩
  | enc :: encs, h => by
      obtain ⟨henc, hencs⟩ := List.forall_mem_cons.mp h
      obtain ⟨seg, rest, hseg, haccounts⟩ := decodeSegment_wellFormed henc
      obtain ⟨segs, hsegs, hall⟩ := decodeSegments_wellFormed hencs
      refine ⟨seg :: segs, ?_, .cons haccounts hall⟩
      rw [decodeSegments, hseg]
      simp only [hsegs]
      rfl

/-! ### Mappings -/

/-- The pieces of a line; a line that is empty has none. -/
def pieces (line : List UInt8) : List (List UInt8) :=
  if line.isEmpty then [] else line.splitOn comma

/-- Mappings with a segment for every piece of a line, which accounts for its bytes. -/
def AllAccounted (mappingsBytes : List UInt8) (mappings : Mappings) : Prop :=
  List.Forall₂ (fun line segs => List.Forall₂ Accounts segs (pieces line))
    (mappingsBytes.splitOn semicolon) mappings

theorem decodeLine_eq (line : List UInt8) :
    (if line.isEmpty then .ok [] else decodeSegments (line.splitOn comma)) =
      decodeSegments (pieces line) := by
  unfold pieces
  split <;> rfl

theorem decodeLines_wellFormed : ∀ {lines : List (List UInt8)},
    (∀ line ∈ lines, ∀ enc ∈ pieces line, WellFormed enc) →
      ∃ mappings, (lines.mapM fun line => decodeSegments (pieces line)) = .ok mappings ∧
        List.Forall₂ (fun line segs => List.Forall₂ Accounts segs (pieces line)) lines mappings
  | [], _ => ⟨[], rfl, .nil⟩
  | line :: lines, h => by
      obtain ⟨hline, hlines⟩ := List.forall_mem_cons.mp h
      obtain ⟨segs, hsegs, haccounts⟩ := decodeSegments_wellFormed hline
      obtain ⟨mappings, hmappings, hall⟩ := decodeLines_wellFormed hlines
      refine ⟨segs :: mappings, ?_, .cons haccounts hall⟩
      rw [List.mapM_cons, hsegs, hmappings]
      rfl

/-- A mapping is an error, or accounts for its bytes, if every piece has 1, 4 or 5 quantities and
nothing else, or a byte that is no digit is read in some line. Otherwise bytes are dropped. -/
theorem deserializeMappings_accounts_iff {mappingsStr : String} {mappingsBytes : List UInt8}
    (h : asciiEncode mappingsStr = .ok mappingsBytes) :
    ((∃ e, deserializeMappings mappingsStr = .error e) ∨
        ∃ mappings, deserializeMappings mappingsStr = .ok mappings ∧
          AllAccounted mappingsBytes mappings) ↔
      (∀ line ∈ mappingsBytes.splitOn semicolon, ∀ enc ∈ pieces line, WellFormed enc) ∨
        ∃ line ∈ mappingsBytes.splitOn semicolon, LineReadsBad (pieces line) := by
  have hrun : deserializeMappings mappingsStr =
      (mappingsBytes.splitOn semicolon).mapM fun line => decodeSegments (pieces line) := by
    rw [deserializeMappings, h, ok_bind]
    simp only [decodeLine_eq]
  rw [hrun]
  unfold AllAccounted
  generalize mappingsBytes.splitOn semicolon = lines
  constructor
  · rintro (⟨e, herror⟩ | ⟨mappings, -, hall⟩)
    · obtain ⟨line, hline, hbad⟩ := mapM_error herror
      exact .inr ⟨line, hline, decodeSegments_error_iff.mp ⟨e, hbad⟩⟩
    · refine .inl fun line hline enc henc => ?_
      obtain ⟨segs, -, hsegs⟩ := exists_of_forall₂_left hall hline
      obtain ⟨seg, -, hseg⟩ := exists_of_forall₂_right hsegs henc
      exact hseg.wellFormed
  · rintro (hall | ⟨line, hline, hbad⟩)
    · obtain ⟨mappings, hmappings, haccounts⟩ := decodeLines_wellFormed hall
      exact .inr ⟨mappings, hmappings, haccounts⟩
    · obtain ⟨e, he⟩ := decodeSegments_error_iff.mpr hbad
      cases hlines : lines.mapM fun line => decodeSegments (pieces line) with
      | error e => exact .inl ⟨e, rfl⟩
      | ok mappings =>
          obtain ⟨segs, -, hsegs⟩ := mapM_ok_of_mem hlines hline
          rw [hsegs] at he
          cases he

/-- The line of `AA` has one piece, of two quantities, and no segment. -/
theorem deserializeMappings_truncated : asciiEncode "AA" = .ok [65, 65] ∧
    ¬ ((∃ e, deserializeMappings "AA" = .error e) ∨
      ∃ mappings, deserializeMappings "AA" = .ok mappings ∧ AllAccounted [65, 65] mappings) := by
  have hrun : deserializeMappings "AA" = .ok [[]] := rfl
  refine ⟨rfl, ?_⟩
  rw [hrun]
  rintro (⟨e, h⟩ | ⟨mappings, h, hall⟩)
  · cases h
  · obtain rfl : [[]] = mappings := Except.ok.inj h
    have hpieces : pieces [65, 65] = [[65, 65]] := rfl
    obtain ⟨segs, hsegs, hline⟩ := exists_of_forall₂_left hall
      (show [65, 65] ∈ List.splitOn semicolon [65, 65] from List.mem_singleton_self _)
    rw [List.mem_singleton.mp hsegs, hpieces] at hline
    cases hline

/-- Of a line with two well-formed pieces nothing is lost. -/
theorem deserializeMappings_accounts : (∃ e, deserializeMappings "A,AAAC" = .error e) ∨
    ∃ mappings, deserializeMappings "A,AAAC" = .ok mappings ∧
      AllAccounted [65, 44, 65, 65, 65, 67] mappings := by
  have hencode : asciiEncode "A,AAAC" = .ok [65, 44, 65, 65, 65, 67] := rfl
  have hlast : ∀ c ∈ [(65 : UInt8), 67], IsVlq [c] := by
    intro c hc
    refine ⟨[], c, rfl, nofun, ?_⟩
    rcases List.mem_cons.mp hc with rfl | hc
    · exact ⟨0, rfl, rfl⟩
    · obtain rfl := List.mem_singleton.mp hc
      exact ⟨2, rfl, rfl⟩
  refine (deserializeMappings_accounts_iff hencode).mpr (.inl ?_)
  have hsplit : List.splitOn semicolon [65, 44, 65, 65, 65, 67] = [[65, 44, 65, 65, 65, 67]] := rfl
  have hpieces : pieces [65, 44, 65, 65, 65, 67] = [[65], [65, 65, 65, 67]] := rfl
  intro line hline enc henc
  rw [hsplit] at hline
  rw [List.mem_singleton.mp hline, hpieces] at henc
  rcases List.mem_cons.mp henc with rfl | henc
  · refine ⟨[[65]], ⟨rfl, ?_⟩, .inl rfl⟩
    exact List.forall_mem_singleton.mpr (hlast 65 (by simp))
  · obtain rfl := List.mem_singleton.mp henc
    refine ⟨[[65], [65], [65], [67]], ⟨rfl, ?_⟩, .inr (.inl rfl)⟩
    intro vlq hvlq
    simp only [List.mem_cons, List.not_mem_nil, or_false] at hvlq
    rcases hvlq with rfl | rfl | rfl | rfl
    · exact hlast 65 (by simp)
    · exact hlast 65 (by simp)
    · exact hlast 65 (by simp)
    · exact hlast 67 (by simp)

end JaxDas.SourceMap
