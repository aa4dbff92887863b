import ExtrusionProfile.Proofs.Number.Difference

/-! How far a double is from the rational that it stands for. Below half of the largest power of
two nothing overflows, and a rounded result has the sign of the exact one, is at most twice as
large, not less than half as large unless the exact one is below all doubles, and differs from it by
at most half a step of the grid. -/
namespace ExtrusionProfile
namespace Binary64

open Float.Model Float.Model.UnpackedFloat

section Nearest

variable {q : ℚ}

theorem halfEven_le_two_mul (hq : 0 ≤ q) : (halfEven q : ℚ) ≤ 2*q := by
  have hl := Nat.floor_le hq
  unfold halfEven
  dsimp only
  rcases Nat.mod_two_eq_zero_or_one ⌊q⌋₊ with h2 | h2 <;> rw [h2] <;> split_ifs <;> push_cast <;>
    linarith

theorem le_two_mul_halfEven (hq : 1 ≤ q) : q ≤ 2*halfEven q := by
  have hu := Nat.lt_floor_add_one q
  have hf : (1 : ℚ) ≤ ⌊q⌋₊ := by exact_mod_cast (Nat.one_le_floor_iff q).mpr hq
  have hh : (⌊q⌋₊ : ℚ) ≤ halfEven q := by exact_mod_cast floor_le_halfEven q
  linarith

theorem abs_sub_halfEven_le_half (hq : 0 ≤ q) : |q-halfEven q| ≤ 1/2 := by
  have hl := Nat.floor_le hq
  have hu := Nat.lt_floor_add_one q
  unfold halfEven
  dsimp only
  rcases Nat.mod_two_eq_zero_or_one ⌊q⌋₊ with h2 | h2 <;> rw [h2] <;> split_ifs <;> push_cast <;>
    rw [abs_le] <;> constructor <;> linarith

theorem nearest_le_two_mul (hq : 0 ≤ q) : nearest q ≤ 2*q := by
  have hs := gridStep_pos q
  have h := mul_le_mul_of_nonneg_right (halfEven_le_two_mul (div_nonneg hq hs.le)) hs.le
  rwa [mul_assoc,div_mul_cancel₀ _ hs.ne'] at h

theorem gridStep_le_self (h : smallest ≤ q) : gridStep q ≤ q := by
  have hq := smallest_pos.trans_le h
  rcases (le_max_right (Int.log 2 q-52) (-1074)).eq_or_lt with he | he
  · exact h.trans' (by rw [gridStep,gridExponent,← he,smallest])
  · have hs := gridStep_pos q
    have hl := le_of_gridExponent hq he
    linarith

theorem le_two_mul_nearest (h : smallest ≤ q) : q ≤ 2*nearest q := by
  have hs := gridStep_pos q
  have hq : 1 ≤ q/gridStep q := (one_le_div hs).mpr (gridStep_le_self h)
  have h := mul_le_mul_of_nonneg_right (le_two_mul_halfEven hq) hs.le
  rwa [mul_assoc,div_mul_cancel₀ _ hs.ne'] at h

theorem abs_sub_nearest_le_step (hq : 0 ≤ q) : |q-nearest q| ≤ gridStep q/2 := by
  have hs := gridStep_pos q
  have h := mul_le_mul_of_nonneg_right (abs_sub_halfEven_le_half (div_nonneg hq hs.le)) hs.le
  rw [← abs_of_pos hs,← abs_mul,abs_of_pos hs,sub_mul,div_mul_cancel₀ _ hs.ne'] at h
  rw [nearest]
  linarith

theorem gridStep_le {k : ℤ} (hq : 0 < q) (h : q ≤ 2^k) (hk : -1022 ≤ k) :
    gridStep q ≤ 2^(k-52) := by
  have hl : Int.log 2 q ≤ k := by
    have hk : q < (2 : ℚ)^(k+1) := h.trans_lt (zpow_lt_zpow_right₀ (by norm_num) (lt_add_one k))
    exact Int.lt_add_one_iff.mp ((Int.lt_zpow_iff_log_lt (b:=2) (by decide) hq).mp hk)
  refine zpow_le_zpow_right₀ (by norm_num) ?_
  unfold gridExponent
  omega

/-- Rounding leads to a double, unless the number is too large. -/
theorem exists_canonical (hq : 0 < q) (hn : 0 < nearest q) (h : q < 2^(1023 : ℤ)) :
    ∃ m e, 0 < m ∧ Canonical m e ∧ e ≤ 971 ∧ nearest q = m*2^e := by
  have hl : -1074 ≤ gridExponent q := le_max_right _ _
  have hg : gridExponent q ≤ 970 := by
    have := (Int.lt_zpow_iff_log_lt (b:=2) (by decide) hq).mp h
    unfold gridExponent
    omega
  have hm : 0 < halfEven (q/gridStep q) := Nat.pos_of_ne_zero fun h0 => by
    rw [nearest,h0,Nat.cast_zero,zero_mul] at hn
    exact lt_irrefl _ hn
  have hc := canonical_floor hq
  rcases lt_or_ge (halfEven (q/gridStep q)) (2^53) with hb | hb
  · have hm' := fun he => (hc.le he).trans (floor_le_halfEven _)
    exact ⟨_,gridExponent q,hm,⟨hb,hl,hm'⟩,by omega,rfl⟩
  · have he : halfEven (q/gridStep q) = 2^53 :=
      le_antisymm ((halfEven_le_floor_succ _).trans hc.lt) hb
    refine ⟨2^52,gridExponent q+1,by positivity,⟨by norm_num,by omega,fun _ => le_rfl⟩,by omega,?_⟩
    rw [nearest,he,gridStep,zpow_add₀ (by norm_num)]
    push_cast
    ring

end Nearest

section Rounded

variable {q : ℚ} {u v : UnpackedFloat}

theorem ratOf_of_rank (hu : u.isNaN = false) (hv : v.isNaN = false) (h : rankOf u = rankOf v) :
    ratOf u = ratOf v ∧ u.isFinite = v.isFinite := by
  rcases u with s | _ | s | ⟨s,m,e,hm⟩ <;> rcases v with s' | _ | s' | ⟨s',m',e',hm'⟩ <;>
    (try cases s) <;> (try cases s') <;>
    first
    | cases hu; done
    | cases hv; done
    | exact ⟨rfl,rfl⟩
    | simp [rankOf] at h
  all_goals
    obtain ⟨rfl,rfl⟩ := h
    exact ⟨rfl,rfl⟩

theorem ratOf_onGrid (s : Sign) (hq : 0 < q) (h : q < 2^(1023 : ℤ)) :
    ratOf (onGrid s (nearest q)) = s.apply 1*nearest q ∧
      (onGrid s (nearest q)).isFinite = true := by
  rcases (nearest_nonneg q).eq_or_lt with hn | hn
  · rw [← hn,onGrid_zero,mul_zero]
    exact ⟨rfl,rfl⟩
  · obtain ⟨m,e,hm,hc,he,hv⟩ := exists_canonical hq hn h
    rw [hv,onGrid_canonical s hm hc he]
    exact ⟨ratOf_eq s hm e,rfl⟩

theorem ratOf_rounded (h : |q| < 2^(1023 : ℤ)) :
    ratOf (rounded q) = (if q < 0 then -nearest |q| else nearest |q|) ∧
      (rounded q).isFinite = true := by
  rcases eq_or_ne q 0 with rfl | hq
  · rw [rounded_zero,abs_zero,nearest_zero,neg_zero,ite_self]
    exact ⟨rfl,rfl⟩
  · unfold rounded
    split_ifs with hs
    · simpa [Sign.apply] using ratOf_onGrid .negative (abs_pos.mpr hq) h
    · simpa [Sign.apply] using ratOf_onGrid .positive (abs_pos.mpr hq) h

end Rounded

namespace Near

variable {x : Float} {q : ℚ} {k : ℤ}

theorem toRat_eq (hx : Near x q) (h : |q| < 2^(1023 : ℤ)) :
    toRat x = if q < 0 then -nearest |q| else nearest |q| := by
  obtain ⟨hr,-⟩ := ratOf_rounded h
  exact (ratOf_of_rank hx.1 (isNaN_onGrid _ _) hx.2).1.trans hr

theorem isFinite (hx : Near x q) (h : |q| < 2^(1023 : ℤ)) : x.isFinite :=
  (ratOf_of_rank hx.1 (isNaN_onGrid _ _) hx.2).2.trans (ratOf_rounded h).2

theorem abs_toRat (hx : Near x q) (h : |q| < 2^(1023 : ℤ)) : |toRat x| = nearest |q| := by
  rw [hx.toRat_eq h]
  split_ifs
  · rw [abs_neg,abs_of_nonneg (nearest_nonneg _)]
  · rw [abs_of_nonneg (nearest_nonneg _)]

theorem abs_toRat_le (hx : Near x q) (h : |q| < 2^(1023 : ℤ)) : |toRat x| ≤ 2*|q| := by
  rw [hx.abs_toRat h]
  exact nearest_le_two_mul (abs_nonneg q)

theorem abs_le_toRat (hx : Near x q) (h : |q| < 2^(1023 : ℤ)) (hl : smallest ≤ |q|) :
    |q| ≤ 2*|toRat x| := by
  rw [hx.abs_toRat h]
  exact le_two_mul_nearest hl

theorem toRat_nonneg (hx : Near x q) (h : |q| < 2^(1023 : ℤ)) (hq : 0 ≤ q) : 0 ≤ toRat x := by
  rw [hx.toRat_eq h,if_neg (not_lt.mpr hq)]
  exact nearest_nonneg _

theorem abs_toRat_sub_le_step (hx : Near x q) (h : |q| < 2^(1023 : ℤ)) :
    |toRat x-q| ≤ gridStep |q|/2 := by
  have hn := abs_sub_nearest_le_step (abs_nonneg q)
  rw [hx.toRat_eq h]
  split_ifs with hs
  · rw [abs_of_neg hs] at hn ⊢
    rwa [neg_sub_comm]
  · rw [abs_of_nonneg (not_lt.mp hs)] at hn ⊢
    rwa [abs_sub_comm]

theorem abs_toRat_sub_le (hx : Near x q) (h : |q| ≤ 2^k) (hk : -1022 ≤ k) (hk' : k ≤ 1022) :
    |toRat x-q| ≤ 2^(k-53) := by
  have hl : |q| < 2^(1023 : ℤ) :=
    h.trans_lt (zpow_lt_zpow_right₀ (by norm_num) (by omega))
  rcases eq_or_ne q 0 with rfl | h0
  · rw [hx.toRat_eq hl,if_neg (lt_irrefl _),abs_zero,nearest_zero,sub_zero,abs_zero]
    exact (zpow_pos (by norm_num) _).le
  · have hs : (2 : ℚ)^(k-52) = 2^(k-53)*2 := by
      rw [← zpow_add_one₀ (by norm_num)]
      congr 1
      omega
    linarith [hx.abs_toRat_sub_le_step hl,gridStep_le (abs_pos.mpr h0) h hk]

end Near

section Order

variable {x y : Float}

theorem lt_iff_toRat (hx : x.isFinite) (hy : y.isFinite) : x < y ↔ toRat x < toRat y := by
  constructor
  · intro h
    linarith [toRat_add_smallest_le hx hy h,smallest_pos]
  · intro h
    by_contra hn
    have hl := le_of_not_lt (isNaN_of_isFinite hy) (isNaN_of_isFinite hx) hn
    exact absurd (toRat_le hy hx hl) (not_le.mpr h)

theorem le_iff_toRat (hx : x.isFinite) (hy : y.isFinite) : x ≤ y ↔ toRat x ≤ toRat y := by
  refine ⟨toRat_le hx hy,fun h => ?_⟩
  refine le_of_not_lt (isNaN_of_isFinite hx) (isNaN_of_isFinite hy) fun hl => ?_
  exact absurd ((lt_iff_toRat hy hx).mp hl) (not_lt.mpr h)

theorem beq_iff_toRat (hx : x.isFinite) (hy : y.isFinite) : x == y ↔ toRat x = toRat y := by
  have hn := isNaN_of_isFinite hx
  have hn' := isNaN_of_isFinite hy
  have h : x == y ↔ x ≤ y ∧ y ≤ x := by
    rw [beq_iff,le_iff,le_iff]
    exact ⟨fun h => ⟨⟨h.1,h.2.1,h.2.2.le⟩,h.2.1,h.1,h.2.2.ge⟩,
      fun h => ⟨h.1.1,h.1.2.1,le_antisymm h.1.2.2 h.2.2.2⟩⟩
  rw [h,le_iff_toRat hx hy,le_iff_toRat hy hx]
  exact ⟨fun h => le_antisymm h.1 h.2,fun h => ⟨h.le,h.ge⟩⟩

theorem isFinite_zero : (0 : Float).isFinite := rfl

@[simp] theorem toRat_zero : toRat 0 = 0 := rfl

end Order

end Binary64
end ExtrusionProfile
