import ExtrusionProfile.Proofs.Number.Arithmetic

/-! The sign of a difference. Two doubles that differ are at least the least positive double
apart, so a difference as computed is never rounded to zero: it lies above zero exactly when the
minuend is the greater one. -/
namespace ExtrusionProfile
namespace Binary64

open Float.Model Float.Model.UnpackedFloat

variable {x y : Float} {q : ℚ}

def smallest : ℚ := 2^(-1074 : ℤ)

theorem smallest_pos : 0 < smallest := zpow_pos (by norm_num) _

theorem rankOf_lt_rounded (h : smallest ≤ q) (s : Sign) :
    rankOf (.zero s) < rankOf (rounded q) := by
  have hc : Canonical 1 (-1074) := ⟨by norm_num,le_rfl,fun h => absurd h (lt_irrefl _)⟩
  have hs : rounded smallest = .finite .positive 1 (-1074) Nat.one_pos := by
    have hr := rounded_ratOf (s:=.positive) Nat.one_pos hc (by norm_num)
    rwa [ratOf_positive,Nat.cast_one,one_mul] at hr
  have hm := rankOf_rounded_mono smallest_pos.le h
  rw [hs] at hm
  exact lt_of_lt_of_le (by simp [rankOf,Prod.Lex.toLex_lt_toLex]) hm

theorem rankOf_rounded_nonpos (h : q ≤ 0) (s : Sign) :
    rankOf (rounded q) ≤ rankOf (.zero s) := by
  rcases h.eq_or_lt with rfl | h
  · rw [rounded_zero]
    exact le_rfl
  · rw [rounded,if_pos h,onGrid]
    split_ifs <;> simp [rankOf,Prod.Lex.toLex_le_toLex]

theorem rank_eq_rounded (hx : x.isFinite) : rank x = rankOf (rounded (toRat x)) := by
  unfold toRat rank
  rcases finite_cases hx with ⟨s,hx⟩ | ⟨s,m,e,hm,hx,hc,he⟩ <;> rw [hx]
  · rw [ratOf_zero,rounded_zero]
    rfl
  · rw [rounded_ratOf hm hc he]

theorem exists_toRat_eq_mul (hx : x.isFinite) : ∃ k : ℤ, toRat x = k*smallest := by
  unfold toRat
  rcases finite_cases hx with ⟨s,hx⟩ | ⟨s,m,e,hm,hx,hc,-⟩ <;> rw [hx]
  · exact ⟨0,by simp⟩
  · have he : (2 : ℚ)^(e+1074).toNat*smallest = 2^e := by
      have hl := hc.least_le
      rw [smallest,← zpow_natCast,← zpow_add₀ (by norm_num),Int.toNat_of_nonneg (by omega),
        add_neg_cancel_right]
    refine ⟨s.apply (m*2^(e+1074).toNat : ℕ),?_⟩
    rw [ratOf,← he]
    cases s with
    | negative => push_cast [Sign.apply]; ring
    | positive => push_cast [Sign.apply]; ring

theorem toRat_add_smallest_le (hx : x.isFinite) (hy : y.isFinite) (h : x < y) :
    toRat x+smallest ≤ toRat y := by
  have hne : toRat x ≠ toRat y := by
    intro he
    have hr := (lt_iff.mp h).2.2
    rw [rank_eq_rounded hx,rank_eq_rounded hy,he] at hr
    exact lt_irrefl _ hr
  have hlt := (toRat_le hx hy (le_of_lt h)).lt_of_ne hne
  obtain ⟨k,hk⟩ := exists_toRat_eq_mul hx
  obtain ⟨l,hl⟩ := exists_toRat_eq_mul hy
  rw [hk,hl] at hlt ⊢
  have hkl : (k : ℚ)+1 ≤ l := by exact_mod_cast lt_of_mul_lt_mul_right hlt smallest_pos.le
  calc k*smallest+smallest = (k+1)*smallest := by ring
    _ ≤ l*smallest := mul_le_mul_of_nonneg_right hkl smallest_pos.le

theorem sub_pos_iff_of_isFinite (hx : x.isFinite) (hy : y.isFinite) : 0 < x-y ↔ y < x := by
  obtain ⟨hn,hr⟩ := near_sub hx hy
  have h0 : rank 0 = rankOf (.zero .positive) := rfl
  rw [lt_iff,h0,hr]
  constructor
  · rintro ⟨-,-,h⟩
    by_contra hl
    have hle := toRat_le hx hy (le_of_not_lt (isNaN_of_isFinite hx) (isNaN_of_isFinite hy) hl)
    exact absurd (rankOf_rounded_nonpos (sub_nonpos.mpr hle) .positive) (not_le.mpr h)
  · intro h
    refine ⟨rfl,hn,rankOf_lt_rounded ?_ .positive⟩
    linarith [toRat_add_smallest_le hy hx h]

section Infinite

variable {u v : UnpackedFloat}

theorem sub_cases (h : ¬(u.isFinite ∧ v.isFinite)) :
    (∃ s, UnpackedFloat.sub .binary64 u v = .infinity s) ∨
      UnpackedFloat.sub .binary64 u v = .notANumber := by
  rcases u with s | _ | s | ⟨s,m,e,hm⟩ <;> rcases v with s' | _ | s' | ⟨s',m',e',hm'⟩ <;>
    (try cases s) <;> (try cases s') <;>
    first
    | exact absurd ⟨rfl,rfl⟩ h
    | exact .inr rfl
    | exact .inl ⟨_,rfl⟩

theorem unpack_pack_sub (h : ¬(u.isFinite ∧ v.isFinite)) :
    (Float.Model.pack (.sub .binary64 u v)).unpack = .sub .binary64 u v := by
  rcases sub_cases h with ⟨s,hs⟩ | hs <;> rw [hs]
  · exact unpack_pack_infinity s
  · exact unpack_pack_notANumber

/-- An infinity outweighs whatever it is compared with, unless that is the same infinity. -/
theorem rankOf_sub_iff (h : ¬(u.isFinite ∧ v.isFinite)) :
    ((UnpackedFloat.sub .binary64 u v).isNaN = false ∧
        rankOf (.zero .positive) < rankOf (.sub .binary64 u v)) ↔
      v.isNaN = false ∧ u.isNaN = false ∧ rankOf v < rankOf u := by
  rcases u with s | _ | s | ⟨s,m,e,hm⟩ <;> rcases v with s' | _ | s' | ⟨s',m',e',hm'⟩ <;>
    (try cases s) <;> (try cases s') <;>
    first
    | exact absurd ⟨rfl,rfl⟩ h
    | decide
    | simp [UnpackedFloat.isNaN,UnpackedFloat.sub,rankOf,Prod.Lex.toLex_lt_toLex]

end Infinite

theorem sub_pos_iff_of_not_isFinite (h : ¬(x.isFinite ∧ y.isFinite)) : 0 < x-y ↔ y < x := by
  have hd : (x-y).toModel.unpack = .sub .binary64 x.toModel.unpack y.toModel.unpack :=
    unpack_pack_sub h
  have hr := rankOf_sub_iff h
  rw [← hd] at hr
  rw [lt_iff,lt_iff]
  exact (and_iff_right rfl).trans hr

/-- A difference lies above zero exactly when the minuend is the greater one. Of two equal
infinities it is no number, and no number is above zero. -/
theorem sub_pos_iff : 0 < x-y ↔ y < x := by
  by_cases h : x.isFinite ∧ y.isFinite
  · exact sub_pos_iff_of_isFinite h.1 h.2
  · exact sub_pos_iff_of_not_isFinite h

end Binary64
end ExtrusionProfile
