import Mathlib.Order.Defs.Unbundled
import JaxDas.ShapePoly.Syntax

/-!
# The syntactic order is a total order

Terms are kept sorted, merged and used as dictionary keys through
`_syntactic_cmp` alone, so everything that says "the stored terms are in normal
form" rests on three facts about it: swapping the arguments swaps the answer,
only identical syntax compares equal, and it is transitive. Each is one mutual
induction over factors, lists of factors and lists of terms.
-/

namespace JaxDas.ShapePoly

/-! ## Swapping the arguments -/

theorem compare_swap_int (a b : ℤ) : (compare a b).swap = compare b a :=
  Std.OrientedCmp.eq_swap.symm

mutual

theorem DimFactor.syntacticCmp_swap : ∀ f g : DimFactor,
    (f.syntacticCmp g).swap = g.syntacticCmp f
  | .var v, .var w => by
      rw [DimFactor.syntacticCmp, DimFactor.syntacticCmp]; exact Std.OrientedCmp.eq_swap.symm
  | .var v, .operation op e₁ e₂ => by
      rw [DimFactor.syntacticCmp, DimFactor.syntacticCmp, Ordering.swap_then, compare_swap_int]; rfl
  | .operation op e₁ e₂, .var w => by
      rw [DimFactor.syntacticCmp, DimFactor.syntacticCmp, Ordering.swap_then, compare_swap_int]; rfl
  | .operation op e₁ e₂, .operation op' e₁' e₂' => by
      have hname : (compare op.name op'.name).swap = compare op'.name op.name :=
        Std.OrientedCmp.eq_swap.symm
      rw [DimFactor.syntacticCmp, DimFactor.syntacticCmp]
      simp only [Ordering.swap_then, compare_swap_int, termsCmp_swap e₁ e₁', termsCmp_swap e₂ e₂',
        hname]
termination_by structural f => f

theorem factorsCmp_swap : ∀ t u : List (DimFactor × ℤ), (factorsCmp t u).swap = factorsCmp u t
  | [], [] => rfl
  | [], _ :: _ => rfl
  | _ :: _, [] => rfl
  | (f, n) :: fs, (g, m) :: gs => by
      rw [factorsCmp, factorsCmp]
      simp only [Ordering.swap_then, f.syntacticCmp_swap g, compare_swap_int, factorsCmp_swap fs gs]
termination_by structural t => t

theorem termsCmp_swap : ∀ e e' : List (List (DimFactor × ℤ) × ℤ),
    (termsCmp e e').swap = termsCmp e' e
  | [], [] => rfl
  | [], _ :: _ => rfl
  | _ :: _, [] => rfl
  | (t, k) :: ts, (u, l) :: us => by
      rw [termsCmp, termsCmp]
      simp only [Ordering.swap_then, compare_swap_int, factorsCmp_swap t u, termsCmp_swap ts us]
termination_by structural e => e

end

/-! ## Only identical syntax compares equal -/

theorem Operation.name_injective {op op' : Operation} (h : op.name = op'.name) : op = op' := by
  cases op <;> cases op' <;> first | rfl | exact absurd h (by decide)

mutual

theorem DimFactor.eq_of_syntacticCmp : ∀ {f g : DimFactor}, f.syntacticCmp g = .eq → f = g
  | .var v, .var w, h => by
      rw [DimFactor.syntacticCmp] at h
      exact congrArg _ (Std.LawfulEqCmp.eq_of_compare h)
  | .var v, .operation op e₁ e₂, h => by
      rw [DimFactor.syntacticCmp, Ordering.then_eq_eq] at h
      exact absurd h.2 (by decide)
  | .operation op e₁ e₂, .var w, h => by
      rw [DimFactor.syntacticCmp, Ordering.then_eq_eq] at h
      exact absurd h.2 (by decide)
  | .operation op e₁ e₂, .operation op' e₁' e₂', h => by
      rw [DimFactor.syntacticCmp] at h
      simp only [Ordering.then_eq_eq] at h
      obtain ⟨_, hop, ⟨_, h₁⟩, _, h₂⟩ := h
      rw [Operation.name_injective (Std.LawfulEqCmp.eq_of_compare hop), eq_of_termsCmp h₁,
        eq_of_termsCmp h₂]
termination_by structural f => f

theorem eq_of_factorsCmp : ∀ {t u : List (DimFactor × ℤ)}, factorsCmp t u = .eq → t = u
  | [], [], _ => rfl
  | [], _ :: _, h => by exact absurd h (by simp [factorsCmp])
  | _ :: _, [], h => by exact absurd h (by simp [factorsCmp])
  | (f, n) :: fs, (g, m) :: gs, h => by
      rw [factorsCmp] at h
      simp only [Ordering.then_eq_eq] at h
      obtain ⟨hf, hn, hfs⟩ := h
      rw [f.eq_of_syntacticCmp hf, Std.LawfulEqCmp.eq_of_compare hn, eq_of_factorsCmp hfs]
termination_by structural t => t

theorem eq_of_termsCmp : ∀ {e e' : List (List (DimFactor × ℤ) × ℤ)}, termsCmp e e' = .eq → e = e'
  | [], [], _ => rfl
  | [], _ :: _, h => by exact absurd h (by simp [termsCmp])
  | _ :: _, [], h => by exact absurd h (by simp [termsCmp])
  | (t, k) :: ts, (u, l) :: us, h => by
      rw [termsCmp] at h
      simp only [Ordering.then_eq_eq] at h
      obtain ⟨⟨_, ht⟩, hk, hts⟩ := h
      rw [eq_of_factorsCmp ht, Std.LawfulEqCmp.eq_of_compare hk, eq_of_termsCmp hts]
termination_by structural e => e

end

/-! ## Transitivity -/

/-- A lexicographic comparison is transitive when both of its levels are. -/
theorem then_lt_trans {o₁₂ o₂₃ o₁₃ p₁₂ p₂₃ p₁₃ : Ordering}
    (hlt : o₁₂ = .lt → o₂₃ = .lt → o₁₃ = .lt) (hel : o₁₂ = .eq → o₁₃ = o₂₃)
    (hle : o₂₃ = .eq → o₁₃ = o₁₂) (hp : p₁₂ = .lt → p₂₃ = .lt → p₁₃ = .lt)
    (h₁₂ : o₁₂.then p₁₂ = .lt) (h₂₃ : o₂₃.then p₂₃ = .lt) : o₁₃.then p₁₃ = .lt := by
  rw [Ordering.then_eq_lt] at *
  rcases h₁₂ with h₁ | ⟨h₁, h₁'⟩
  · rcases h₂₃ with h₂ | ⟨h₂, _⟩
    · exact .inl (hlt h₁ h₂)
    · exact .inl (hle h₂ ▸ h₁)
  · rcases h₂₃ with h₂ | ⟨h₂, h₂'⟩
    · exact .inl (hel h₁ ▸ h₂)
    · exact .inr ⟨hel h₁ ▸ h₂, hp h₁' h₂'⟩

/-- The first level of a lexicographic comparison compares integers. -/
theorem then_int_trans {a b c : ℤ} {p₁₂ p₂₃ p₁₃ : Ordering}
    (hp : p₁₂ = .lt → p₂₃ = .lt → p₁₃ = .lt)
    (h₁₂ : (compare a b).then p₁₂ = .lt) (h₂₃ : (compare b c).then p₂₃ = .lt) :
    (compare a c).then p₁₃ = .lt :=
  then_lt_trans (fun h₁ h₂ => Std.TransCmp.lt_trans h₁ h₂)
    (fun h => by rw [Std.LawfulEqCmp.eq_of_compare h])
    (fun h => by rw [Std.LawfulEqCmp.eq_of_compare h]) hp h₁₂ h₂₃

mutual

theorem DimFactor.syntacticCmp_trans : ∀ {f g h : DimFactor},
    f.syntacticCmp g = .lt → g.syntacticCmp h = .lt → f.syntacticCmp h = .lt
  | .var v, .var w, .var x => by
      rw [DimFactor.syntacticCmp, DimFactor.syntacticCmp, DimFactor.syntacticCmp]
      exact Std.TransCmp.lt_trans
  | .var v, .var w, .operation .. => by
      rw [DimFactor.syntacticCmp, DimFactor.syntacticCmp, DimFactor.syntacticCmp]
      exact fun _ h => h
  | .var v, .operation .., .var x => by
      intro h₁ h₂
      -- a size cannot be both at most and less than another
      simp only [DimFactor.syntacticCmp, Ordering.then_eq_lt] at h₁ h₂
      rcases h₂ with h₂ | ⟨_, h₂⟩
      · rcases h₁ with h₁ | ⟨h₁, _⟩
        · exact absurd (Std.TransCmp.lt_trans h₁ h₂) (by simp [DimFactor.size])
        · rw [← Std.LawfulEqCmp.eq_of_compare h₁] at h₂
          exact absurd h₂ (by simp [DimFactor.size])
      · exact absurd h₂ (by decide)
  | .var v, .operation .., .operation .. => by
      rw [DimFactor.syntacticCmp, DimFactor.syntacticCmp, DimFactor.syntacticCmp]
      exact then_int_trans fun _ _ => rfl
  | .operation .., .var w, .var x => by
      rw [DimFactor.syntacticCmp, DimFactor.syntacticCmp, DimFactor.syntacticCmp]
      exact fun h _ => h
  | .operation .., .var w, .operation .. => by
      rw [DimFactor.syntacticCmp, DimFactor.syntacticCmp, DimFactor.syntacticCmp]
      exact then_int_trans fun h _ => absurd h (by decide)
  | .operation .., .operation .., .var x => by
      rw [DimFactor.syntacticCmp, DimFactor.syntacticCmp, DimFactor.syntacticCmp]
      exact then_int_trans fun _ h => absurd h (by decide)
  | .operation op₁ a₁ b₁, .operation op₂ a₂ b₂, .operation op₃ a₃ b₃ => by
      rw [DimFactor.syntacticCmp, DimFactor.syntacticCmp, DimFactor.syntacticCmp]
      refine then_int_trans (then_lt_trans (fun h₁ h₂ => Std.TransCmp.lt_trans h₁ h₂)
        (fun h => by rw [Std.LawfulEqCmp.eq_of_compare h])
        (fun h => by rw [Std.LawfulEqCmp.eq_of_compare h]) (then_lt_trans ?_ ?_ ?_ ?_))
      · exact then_int_trans termsCmp_trans
      · rw [Ordering.then_eq_eq]; exact fun h => by rw [eq_of_termsCmp h.2]
      · rw [Ordering.then_eq_eq]; exact fun h => by rw [eq_of_termsCmp h.2]
      · exact then_int_trans termsCmp_trans
termination_by structural f => f

theorem factorsCmp_trans : ∀ {t u v : List (DimFactor × ℤ)},
    factorsCmp t u = .lt → factorsCmp u v = .lt → factorsCmp t v = .lt
  | [], [], _ => fun h _ => by exact absurd h (by simp [factorsCmp])
  | [], _ :: _, [] => fun _ h => by exact absurd h (by simp [factorsCmp])
  | [], _ :: _, _ :: _ => fun _ _ => rfl
  | _ :: _, [], _ => fun h _ => by exact absurd h (by simp [factorsCmp])
  | _ :: _, _ :: _, [] => fun _ h => by exact absurd h (by simp [factorsCmp])
  | (f, n) :: fs, (g, m) :: gs, (h, l) :: hs => by
      rw [factorsCmp, factorsCmp, factorsCmp]
      exact then_lt_trans f.syntacticCmp_trans
        (fun h => by rw [DimFactor.eq_of_syntacticCmp h])
        (fun h => by rw [DimFactor.eq_of_syntacticCmp h])
        (then_int_trans factorsCmp_trans)
termination_by structural t => t

theorem termsCmp_trans : ∀ {e e' e'' : List (List (DimFactor × ℤ) × ℤ)},
    termsCmp e e' = .lt → termsCmp e' e'' = .lt → termsCmp e e'' = .lt
  | [], [], _ => fun h _ => by exact absurd h (by simp [termsCmp])
  | [], _ :: _, [] => fun _ h => by exact absurd h (by simp [termsCmp])
  | [], _ :: _, _ :: _ => fun _ _ => rfl
  | _ :: _, [], _ => fun h _ => by exact absurd h (by simp [termsCmp])
  | _ :: _, _ :: _, [] => fun _ h => by exact absurd h (by simp [termsCmp])
  | (t, k) :: ts, (u, l) :: us, (v, m) :: vs => by
      rw [termsCmp, termsCmp, termsCmp]
      refine then_lt_trans (then_int_trans factorsCmp_trans) ?_ ?_ (then_int_trans termsCmp_trans)
      · rw [Ordering.then_eq_eq]; exact fun h => by rw [eq_of_factorsCmp h.2]
      · rw [Ordering.then_eq_eq]; exact fun h => by rw [eq_of_factorsCmp h.2]
termination_by structural e => e

end

/-! ## The laws, packaged -/

theorem DimFactor.syntacticCmp_self (f : DimFactor) : f.syntacticCmp f = .eq := by
  have h := f.syntacticCmp_swap f
  cases hc : f.syntacticCmp f with
  | eq => rfl
  | lt => rw [hc] at h; exact absurd h (by decide)
  | gt => rw [hc] at h; exact absurd h (by decide)

theorem DimTerm.syntacticCmp_swap (t u : DimTerm) :
    (t.syntacticCmp u).swap = u.syntacticCmp t := by
  unfold syntacticCmp
  rw [Ordering.swap_then, compare_swap_int, factorsCmp_swap]

theorem DimTerm.eq_of_syntacticCmp {t u : DimTerm} (h : t.syntacticCmp u = .eq) : t = u :=
  eq_of_factorsCmp (Ordering.then_eq_eq.mp h).2

theorem DimTerm.syntacticCmp_trans {t u v : DimTerm} :
    t.syntacticCmp u = .lt → u.syntacticCmp v = .lt → t.syntacticCmp v = .lt :=
  then_int_trans factorsCmp_trans

theorem DimExpr.syntacticCmp_swap (e e' : DimExpr) :
    (e.syntacticCmp e').swap = e'.syntacticCmp e := by
  unfold syntacticCmp
  rw [Ordering.swap_then, compare_swap_int, termsCmp_swap]

theorem DimExpr.eq_of_syntacticCmp {e e' : DimExpr} (h : e.syntacticCmp e' = .eq) : e = e' :=
  eq_of_termsCmp (Ordering.then_eq_eq.mp h).2

theorem DimExpr.syntacticCmp_trans {e e' e'' : DimExpr} :
    e.syntacticCmp e' = .lt → e'.syntacticCmp e'' = .lt → e.syntacticCmp e'' = .lt :=
  then_int_trans termsCmp_trans

/-- Comparisons built from a swap law, an identity law and transitivity. -/
theorem transCmp_of_laws {α : Type} {cmp : α → α → Ordering}
    (hswap : ∀ a b, (cmp a b).swap = cmp b a) (heq : ∀ {a b}, cmp a b = .eq → a = b)
    (htrans : ∀ {a b c}, cmp a b = .lt → cmp b c = .lt → cmp a c = .lt) : Std.TransCmp cmp where
  eq_swap {a b} := (hswap b a).symm
  isLE_trans {a b c} h₁ h₂ := by
    cases h : cmp a b with
    | eq => rwa [heq h]
    | gt => rw [h] at h₁; exact absurd h₁ (by decide)
    | lt =>
        cases h' : cmp b c with
        | eq => rwa [← heq h']
        | gt => rw [h'] at h₂; exact absurd h₂ (by decide)
        | lt => rw [htrans h h']; rfl

/-- Under the same laws the comparison is a strict total order. -/
theorem strictTotalOrder_of_laws {α : Type} {cmp : α → α → Ordering}
    (hswap : ∀ a b, (cmp a b).swap = cmp b a) (heq : ∀ {a b}, cmp a b = .eq → a = b)
    (htrans : ∀ {a b c}, cmp a b = .lt → cmp b c = .lt → cmp a c = .lt) :
    IsStrictTotalOrder α fun a b => cmp a b = .lt where
  trichotomous a b hlt hgt := by
    cases h : cmp a b with
    | lt => exact absurd h hlt
    | eq => exact heq h
    | gt =>
        rw [← hswap a b, h] at hgt
        exact absurd rfl hgt
  irrefl a h := by
    have hswap' := hswap a a
    rw [h] at hswap'
    injection hswap'
  trans _ _ _ h₁ h₂ := htrans h₁ h₂

instance : Std.TransCmp DimFactor.syntacticCmp :=
  transCmp_of_laws DimFactor.syntacticCmp_swap DimFactor.eq_of_syntacticCmp
    DimFactor.syntacticCmp_trans

instance : Std.TransCmp DimTerm.syntacticCmp :=
  transCmp_of_laws DimTerm.syntacticCmp_swap DimTerm.eq_of_syntacticCmp
    DimTerm.syntacticCmp_trans

theorem DimTerm.syntacticCmp_self (t : DimTerm) : t.syntacticCmp t = .eq :=
  Std.ReflCmp.compare_self

/-- `_DimFactor.__eq__` decides identity. -/
instance : DecidableEq DimFactor := fun f g =>
  decidable_of_iff (f.syntacticCmp g = .eq)
    ⟨DimFactor.eq_of_syntacticCmp, fun h => h ▸ f.syntacticCmp_self⟩

end JaxDas.ShapePoly
