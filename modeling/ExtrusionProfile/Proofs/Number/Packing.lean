import ExtrusionProfile.Proofs.Number.Order
import Mathlib

/-! How doubles are kept. A finite double other than zero has a significand of 53 bits, or the
least exponent; a number in that form is packed without loss, unless its exponent is too
large for a double. -/
namespace ExtrusionProfile
namespace Binary64

open Float.Model Float.Model.UnpackedFloat

section Fields

theorem finite_congr {s : Sign} {m m' : ℕ} {e e' : ℤ} {h : 0 < m} {h' : 0 < m'} (hm : m = m')
    (he : e = e') : UnpackedFloat.finite s m e h = .finite s m' e' h' := by
  subst hm he; rfl

theorem toNat_append_one (m : BitVec 52) : (1#1 ++ m).toNat = 2^52+m.toNat := by
  rw [BitVec.toNat_append,← Nat.shiftLeft_add_eq_or_of_lt m.isLt]
  rfl

/-- The number that a sign, an exponent field and a significand field stand for. -/
def ofFields (s : Sign) (e : BitVec 11) (m : BitVec 52) : UnpackedFloat :=
  if e = -1#11 then if m = 0#52 then .infinity s else .notANumber
  else if e = 0#11 then
    if h : m = 0#52 then .zero s
    else .finite s m.toNat (-1074) (by simpa [BitVec.toNat_pos,BitVec.pos_iff_ne_zero])
  else .finite s (2^52+m.toNat) (e.toNat-1075) (by omega)

theorem unpack_eq_ofFields (b : BitVec 64) : UnpackedFloat.unpack .binary64 b =
    ofFields (.ofBitVec (@unpackSign .binary64 b)) (@unpackExponent .binary64 b)
      (@unpackMantissa .binary64 b) := by
  unfold UnpackedFloat.unpack ofFields
  dsimp only
  split_ifs with h₁ h₂ h₃ h₄
  · rfl
  · rfl
  · rfl
  · rw [h₃]; rfl
  · exact finite_congr (toNat_append_one _) rfl

theorem unpack_packComponents (s : Sign) (e : BitVec 11) (m : BitVec 52) :
    UnpackedFloat.unpack .binary64 (packComponents .binary64 s e m) = ofFields s e m := by
  rw [unpack_eq_ofFields,unpackSign_packComponents,Sign.ofBitVec_toBitVec,
    unpackExponent_packComponents,unpackMantissa_packComponents]

@[simp] theorem unpack_pack_zero (s : Sign) : (Float.Model.pack (.zero s)).unpack = .zero s := by
  cases s <;> rfl

@[simp] theorem unpack_pack_infinity (s : Sign) :
    (Float.Model.pack (.infinity s)).unpack = .infinity s := by
  cases s <;> rfl

@[simp] theorem unpack_pack_notANumber :
    (Float.Model.pack .notANumber).unpack = .notANumber := rfl

end Fields

/-- A significand and an exponent in the form that doubles keep. -/
structure Canonical (m : ℕ) (e : ℤ) : Prop where
  lt : m < 2^53
  least_le : -1074 ≤ e
  le : -1074 < e → 2^52 ≤ m

variable {s : Sign} {m : ℕ} {e : ℤ} {h : 0 < m}

theorem pack_finite (s : Sign) (h : 0 < m) (e : ℤ) :
    UnpackedFloat.pack .binary64 (.finite s m e h) =
      if 2048 ≤ (e+1075).toNat+1 then packedInfinity .binary64 s
      else if m.log2+1 = 53 then
        packComponents .binary64 s (BitVec.ofNat 11 (e+1075).toNat) (BitVec.ofNat 52 m)
      else packComponents .binary64 s 0#11 (BitVec.ofNat 52 m) := by
  have he : e+Format.binary64.exponentBias+(52 : ℕ) = e+1075 := by
    rw [add_assoc]; rfl
  unfold UnpackedFloat.pack
  dsimp only
  rw [he]
  rfl

theorem ofFields_normal (hm : 2^52 ≤ m) (hm' : m < 2^53) (hl : -1074 ≤ e) (he : e ≤ 971) :
    ofFields s (BitVec.ofNat 11 (e+1075).toNat) (BitVec.ofNat 52 m) = .finite s m e h := by
  have hmod : m%2^52 = m-2^52 := by omega
  have hexp : (e+1075).toNat%2^11 = (e+1075).toNat := Nat.mod_eq_of_lt (by omega)
  have htop : BitVec.ofNat 11 (e+1075).toNat ≠ -1#11 := by
    rw [Ne,← BitVec.toNat_inj,BitVec.toNat_ofNat,hexp]
    change ¬_ = 2047
    omega
  have hbot : BitVec.ofNat 11 (e+1075).toNat ≠ 0#11 := by
    rw [Ne,← BitVec.toNat_inj,BitVec.toNat_ofNat,hexp]
    change ¬_ = 0
    omega
  rw [ofFields,if_neg htop,if_neg hbot]
  exact finite_congr (by rw [BitVec.toNat_ofNat,hmod]; omega)
    (by rw [BitVec.toNat_ofNat,hexp]; omega)

theorem ofFields_subnormal (hm : m < 2^52) :
    ofFields s 0#11 (BitVec.ofNat 52 m) = .finite s m (-1074) h := by
  have hmod : m%2^52 = m := Nat.mod_eq_of_lt hm
  have hne : BitVec.ofNat 52 m ≠ 0#52 := by
    rw [Ne,← BitVec.toNat_inj,BitVec.toNat_ofNat,hmod]
    exact h.ne'
  rw [ofFields,if_neg (by decide),if_pos rfl,dif_neg hne]
  exact finite_congr (by rw [BitVec.toNat_ofNat,hmod]) rfl

theorem unpack_pack_finite (hc : Canonical m e) :
    (Float.Model.pack (.finite s m e h)).unpack =
      if 971 < e then .infinity s else .finite s m e h := by
  obtain ⟨hm,hl,hn⟩ := hc
  change UnpackedFloat.unpack .binary64 (UnpackedFloat.pack .binary64 _) = _
  rw [pack_finite]
  by_cases he : 971 < e
  · rw [if_pos he,if_pos (by omega)]
    exact unpack_pack_infinity s
  rw [if_neg he,if_neg (by omega)]
  by_cases hb : 2^52 ≤ m
  · have hlog : m.log2+1 = 53 := by
      have := (Nat.le_log2 h.ne').mpr hb
      have := (Nat.log2_lt h.ne').mpr hm
      omega
    rw [if_pos hlog,unpack_packComponents,ofFields_normal hb hm hl (not_lt.mp he)]
  · have hlog : ¬m.log2+1 = 53 := by
      have := (Nat.log2_lt h.ne').mpr (not_le.mp hb)
      omega
    obtain rfl : e = -1074 := by omega
    rw [if_neg hlog,unpack_packComponents,ofFields_subnormal (not_le.mp hb)]

theorem unpack_canonical {x : Float.Model} (hx : x.unpack = .finite s m e h) :
    Canonical m e ∧ e ≤ 971 := by
  rw [Float.Model.unpack,unpack_eq_ofFields] at hx
  generalize @unpackMantissa .binary64 x.toBits.toBitVec = f at hx
  generalize @unpackExponent .binary64 x.toBits.toBitVec = b at hx
  have hf : f.toNat < 2^52 := f.isLt
  have hb : b.toNat < 2^11 := b.isLt
  unfold ofFields at hx
  split_ifs at hx with h₁ h₂ h₃ h₄
  · cases hx
    exact ⟨⟨by omega,le_rfl,fun h => absurd h (lt_irrefl _)⟩,by norm_num⟩
  · have htop : b.toNat ≠ 2047 := fun h => h₁ (BitVec.eq_of_toNat_eq h)
    have hbot : b.toNat ≠ 0 := fun h => h₃ (BitVec.eq_of_toNat_eq h)
    cases hx
    exact ⟨⟨by omega,by omega,fun _ => by omega⟩,by omega⟩

end Binary64
end ExtrusionProfile
