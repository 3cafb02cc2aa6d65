import ServiceLang.Decimal.Read

/-!
Literals are numbers.

Not-a-number is the only value that is not equal to itself (`beq_self_iff`).  Packing a value
into 64 bits never makes it not-a-number, and neither does scaling it by a power of ten, since
these are finite and not zero.  So the value of a literal is equal to itself
(`ofLiteral_beq_self`).
-/

namespace ServiceLang.Decimal

open Float.Model UnpackedFloat

/-! ## Packed values -/

section Branches

variable {α : Type} {c : Prop} [Decidable c] {x : α}

theorem ite_ne {a b : α} (ha : c → a ≠ x) (hb : ¬c → b ≠ x) : (if c then a else b) ≠ x := by
  split
  · next h => exact ha h
  · next h => exact hb h

theorem dite_ne {a : c → α} {b : ¬c → α} (ha : ∀ h, a h ≠ x) (hb : ∀ h, b h ≠ x) :
    (if h : c then a h else b h) ≠ x := by
  split
  · next h => exact ha h
  · next h => exact hb h

end Branches

/-- Only a full exponent with a mantissa stands for not-a-number. -/
theorem unpack_ne_notANumber {b : BitVec Format.binary64.numBits}
    (h : unpackExponent b = -1#11 → unpackMantissa b = 0#52) :
    UnpackedFloat.unpack Format.binary64 b ≠ .notANumber := by
  unfold UnpackedFloat.unpack
  dsimp only
  refine ite_ne (fun he => ?_) fun _ => ite_ne (fun _ => ?_) fun _ => UnpackedFloat.noConfusion
  · exact ite_ne (fun _ => UnpackedFloat.noConfusion) fun hm => absurd (h he) hm
  · exact dite_ne (fun _ => UnpackedFloat.noConfusion) fun _ => UnpackedFloat.noConfusion

theorem unpack_pack_ne_notANumber {u : UnpackedFloat} (h : u ≠ .notANumber) :
    (Float.Model.pack u).unpack ≠ .notANumber := by
  refine unpack_ne_notANumber fun he => ?_
  change unpackExponent (UnpackedFloat.pack Format.binary64 u) = -1#11 at he
  show unpackMantissa (UnpackedFloat.pack Format.binary64 u) = 0#52
  cases u with
  | notANumber => exact absurd rfl h
  | infinity s => exact unpackMantissa_packComponents
  | zero s => exact unpackMantissa_packComponents
  | finite s m e hm =>
    unfold UnpackedFloat.pack at he ⊢
    dsimp only at he ⊢
    split at he
    · next hover =>
      rw [if_pos hover]
      exact unpackMantissa_packComponents
    next hfits =>
    split at he
    · -- the exponent is not full
      rw [unpackExponent_packComponents] at he
      have := congrArg BitVec.toNat he
      simp only [BitVec.toNat_ofNat] at this
      simp at hfits this
      omega
    · rw [unpackExponent_packComponents] at he
      cases he

/-! ## Values that are no numbers -/

/-- The value is not-a-number. -/
def IsNothing (x : Float) : Prop := x.toModel.unpack = .notANumber

theorem compare_self {u : UnpackedFloat} (h : u ≠ .notANumber) : u.compare u = some .eq := by
  cases u with
  | notANumber => exact absurd rfl h
  | infinity s => cases s <;> rfl
  | zero s => cases s <;> rfl
  | finite s m e hm =>
    have hself : (compare e e).then (compare m m) = .eq := by simp
    cases s with
    | positive => exact congrArg some hself
    | negative => exact congrArg (some ∘ Ordering.swap) hself

/-- Every value is equal to itself, not-a-number apart. -/
theorem beq_self_iff (x : Float) : (x == x) = true ↔ ¬IsNothing x := by
  show (x.toModel.unpack.compare x.toModel.unpack == some .eq) = true ↔ _
  refine ⟨fun h hx => ?_, fun h => by rw [compare_self h]; rfl⟩
  rw [hx] at h
  cases h

theorem roundWithAccuracy_ne_notANumber (spec : Format) (s : Sign) (m : Nat) (e : Int) (a : Accuracy) :
    roundWithAccuracy spec s m e a ≠ .notANumber := by
  unfold roundWithAccuracy
  dsimp only
  exact dite_ne (fun _ => UnpackedFloat.noConfusion) fun _ => UnpackedFloat.noConfusion

theorem mul_ne_notANumber {spec : Format} {u : UnpackedFloat} (h : u ≠ .notANumber) (s : Sign)
    (m : Nat) (e : Int) (hm : 0 < m) : UnpackedFloat.mul spec u (.finite s m e hm) ≠ .notANumber := by
  cases u with
  | notANumber => exact absurd rfl h
  | infinity | zero => exact UnpackedFloat.noConfusion
  | finite => exact roundWithAccuracy_ne_notANumber _ _ _ _ _

theorem div_ne_notANumber {spec : Format} {u : UnpackedFloat} (h : u ≠ .notANumber) (s : Sign)
    (m : Nat) (e : Int) (hm : 0 < m) : UnpackedFloat.div spec u (.finite s m e hm) ≠ .notANumber := by
  cases u with
  | notANumber => exact absurd rfl h
  | infinity | zero => exact UnpackedFloat.noConfusion
  | finite => exact roundWithAccuracy_ne_notANumber _ _ _ _ _

theorem ofInt_ne_notANumber (spec : Format) (n : Int) : UnpackedFloat.ofInt spec n ≠ .notANumber := by
  unfold UnpackedFloat.ofInt UnpackedFloat.normalize
  split
  · exact roundWithAccuracy_ne_notANumber _ _ _ _ _
  · exact UnpackedFloat.noConfusion
  · exact roundWithAccuracy_ne_notANumber _ _ _ _ _

theorem ofScientific_ne_notANumber (spec : Format) (m : Nat) (e : Int) :
    UnpackedFloat.ofScientific spec m e ≠ .notANumber := by
  unfold UnpackedFloat.ofScientific
  refine dite_ne (fun _ => UnpackedFloat.noConfusion) fun _ =>
    ite_ne (fun _ => UnpackedFloat.noConfusion) fun _ =>
      ite_ne (fun _ => UnpackedFloat.noConfusion) fun _ => ite_ne (fun _ => ?_) fun _ => ?_
  all_goals exact roundWithAccuracy_ne_notANumber _ _ _ _ _

/-! ## Literals -/

/-- The value is finite and not zero. -/
def isFiniteNonzero (x : Float) : Bool :=
  match x.toModel.unpack with
  | .finite _ _ _ _ => true
  | _ => false

theorem isFiniteNonzero_powersOfTen :
    Float.exactlyRepresentablePowersOfTen.all isFiniteNonzero = true := by
  decide +kernel

/-- The powers of ten that are represented exactly are finite and not zero. -/
theorem exists_finite_powerOfTen (e : Nat) (he : e < Float.exactlyRepresentablePowersOfTen.size) :
    ∃ s m x hm, Float.exactlyRepresentablePowersOfTen[e].toModel.unpack = .finite s m x hm := by
  have h : isFiniteNonzero Float.exactlyRepresentablePowersOfTen[e] = true :=
    Array.all_eq_true.1 isFiniteNonzero_powersOfTen e he
  unfold isFiniteNonzero at h
  cases hu : Float.exactlyRepresentablePowersOfTen[e].toModel.unpack with
  | finite s m x hm => exact ⟨s, m, x, hm, rfl⟩
  | _ =>
    rw [hu] at h
    cases h

theorem not_isNothing_ofScientific (m : Nat) (negative : Bool) (e : Nat) :
    ¬IsNothing (Float.ofScientific m negative e) := by
  unfold Float.ofScientific
  split
  · next h =>
    have hsize : e < Float.exactlyRepresentablePowersOfTen.size := Nat.lt_succ_of_le h.2
    obtain ⟨s, n, x, hn, hpower⟩ := exists_finite_powerOfTen e hsize
    have hwhole : (m.toUInt64.toFloat).toModel.unpack ≠ .notANumber :=
      unpack_pack_ne_notANumber (ofInt_ne_notANumber _ _)
    dsimp only
    split
    · refine unpack_pack_ne_notANumber ?_
      rw [hpower]
      exact div_ne_notANumber hwhole _ _ _ _
    · refine unpack_pack_ne_notANumber ?_
      rw [hpower]
      exact mul_ne_notANumber hwhole _ _ _ _
  · exact unpack_pack_ne_notANumber (ofScientific_ne_notANumber _ _ _)

theorem not_isNothing_neg {x : Float} (h : ¬IsNothing x) : ¬IsNothing (-x) := by
  refine unpack_pack_ne_notANumber ?_
  unfold IsNothing at h
  cases hu : x.toModel.unpack with
  | notANumber => exact absurd hu h
  | _ => exact UnpackedFloat.noConfusion

theorem not_isNothing_scaled (mantissa digits : Nat) (exponent : Int) :
    ¬IsNothing (scaled mantissa digits exponent) := by
  unfold scaled
  split
  · exact not_isNothing_ofScientific _ _ _
  split
  · exact not_isNothing_ofScientific _ _ _
  split
  · exact (beq_self_iff _).1 (by decide)
  split
  · exact not_isNothing_ofScientific _ _ _
  · exact not_isNothing_ofScientific _ _ _

/-- What a literal writes is equal to itself. -/
theorem ofLiteral_beq_self (cs : List Char) : (ofLiteral cs == ofLiteral cs) = true := by
  rw [beq_self_iff]
  unfold ofLiteral
  split
  · exact not_isNothing_neg (not_isNothing_scaled _ _ _)
  · exact not_isNothing_scaled _ _ _

end ServiceLang.Decimal
