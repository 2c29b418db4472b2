import Keleusma.Store.Bodies

/-!
# Packing and reading back

A packed body is the bytes of its fields one after the other, padded with zeros
(`packFlatInArena_ok`), so that a field is a slice of it (`slice_flatten`), and a scalar field reads
back as the value that was packed (`readScalarLe_scalarBytes`).
-/

namespace Keleusma

/-! ## Words as bytes -/

namespace Word

theorem cast_ofLeBytes_toLeBytes (n : Int) (k : ℕ) :
    (ofLeBytes (toLeBytes n k) : Int) = n % 2 ^ (8 * k) := by
  induction k generalizing n with
  | zero => simp [toLeBytes, ofLeBytes, Int.emod_one]
  | succ k ih =>
    have hlow : ((UInt8.ofNat (n % 256).toNat).toNat : Int) = n % 256 := by
      rw [UInt8.toNat_ofNat']
      omega
    have hpow : (2 : Int) ^ (8 * (k + 1)) = 256 * 2 ^ (8 * k) := by
      rw [Nat.mul_add, pow_add, mul_comm]
      rfl
    have hquot : n / 256 / 2 ^ (8 * k) = n / (256 * 2 ^ (8 * k)) :=
      Int.ediv_ediv_of_nonneg (by decide)
    rw [toLeBytes, ofLeBytes, Nat.cast_add, Nat.cast_mul, hlow, ih, hpow, Int.emod_def n 256,
      Int.emod_def (n / 256), Int.emod_def n (256 * _), hquot]
    rw [Nat.cast_ofNat, Int.mul_sub, Int.mul_assoc]
    omega

/-- A number that the bytes can hold is read back as it was written. -/
theorem bmod_ofLeBytes_toLeBytes (n : Int) (k : ℕ) :
    (ofLeBytes (toLeBytes n k) : Int).bmod (2 ^ (8 * k)) = n.bmod (2 ^ (8 * k)) := by
  have hcast : ((2 ^ (8 * k) : ℕ) : Int) = 2 ^ (8 * k) := by push_cast; rfl
  rw [cast_ofLeBytes_toLeBytes, ← hcast, Int.emod_bmod]

end Word

/-! ## Slices -/

/-- A field is a slice of the fields one after the other, whatever follows them. -/
theorem slice_flatten {fields : List (List UInt8)} {i : ℕ} {field : List UInt8}
    (hfield : fields[i]? = some field) (rest : List UInt8) :
    slice (fields.flatten ++ rest) ((fields.take i).map List.length).sum field.length =
      some field := by
  obtain ⟨before, after, rfl, rfl⟩ : ∃ before after, fields = before ++ field :: after ∧
      before.length = i := by
    obtain ⟨hi, rfl⟩ := List.getElem?_eq_some_iff.1 hfield
    refine ⟨fields.take i, fields.drop (i + 1), ?_, by rw [List.length_take]; omega⟩
    rw [List.getElem_cons_drop, List.take_append_drop]
  have hbefore : (before.map List.length).sum = before.flatten.length := by
    rw [List.length_flatten]
  rw [List.take_left, hbefore]
  simp only [List.flatten_append, List.flatten_cons, List.append_assoc, slice, List.length_append,
    List.drop_left, List.take_left]
  rw [if_pos (by omega)]

/-! ## Scalar fields -/

/-- The widths that the runtime supports. -/
structure Widths.Supported (w : Widths) : Prop where
  word_pos : 0 < w.wordBytes
  word_le : w.wordBytes ≤ 8
  /-- The declared word is not wider than the one of the runtime. -/
  runtime : 8 * w.wordBytes ≤ Word.bits w.runtimeBitsLog2

/-- The number is one of the declared width. -/
def Widths.Fits (w : Widths) (n : Int) : Prop :=
  -2 ^ (8 * w.wordBytes - 1) ≤ n ∧ n < 2 ^ (8 * w.wordBytes - 1)

theorem Widths.Supported.bmod_of_fits {w : Widths} (hw : w.Supported) {n : Int} (hn : w.Fits n)
    {k : ℕ} (hk : 8 * w.wordBytes ≤ k) : n.bmod (2 ^ k) = n := by
  obtain ⟨hlow, hhigh⟩ := hn
  have hpos := hw.word_pos
  have hle : (2 : Int) ^ (8 * w.wordBytes - 1) ≤ 2 ^ (k - 1) :=
    pow_le_pow_right₀ (by decide) (by omega)
  have hdouble : (2 : Int) ^ k = 2 * 2 ^ (k - 1) := by
    rw [← pow_succ', Nat.sub_add_cancel (by omega)]
  apply Int.bmod_eq_of_le_mul_two
  · push_cast
    omega
  · push_cast
    omega

variable {F : Type} {fo : FloatOps F} {w : Widths}

/-- A value of a scalar kind that holds no float and no reference. -/
inductive ScalarKind.Of (w : Widths) : ScalarKind → Value F → Prop
  | unit : Of w .unit .unit
  | bool (b : Bool) : Of w .bool (.bool b)
  | byte (b : UInt8) : Of w .byte (.byte b)
  | int {n : Int} (hn : w.Fits n) : Of w .int (.int n)
  | fixed {n : Int} (hn : w.Fits n) : Of w .fixed (.fixed n)

namespace ScalarKind.Of

variable {kind : ScalarKind} {v : Value F}

theorem flatFieldSize (h : kind.Of w v) : flatFieldSize w v = some (w.size kind) := by
  cases h <;> rfl

theorem scalarBytes (fo : FloatOps F) (hw : w.Supported) (h : kind.Of w v) :
    ∃ field, scalarBytes fo w v = some field ∧ field.length = w.size kind := by
  cases h with
  | unit => exact ⟨_, rfl, rfl⟩
  | bool b => exact ⟨_, rfl, rfl⟩
  | byte b => exact ⟨_, rfl, rfl⟩
  | int hn => exact ⟨_, if_pos hw.word_le, Word.toLeBytes_length _ _⟩
  | fixed hn => exact ⟨_, if_pos hw.word_le, Word.toLeBytes_length _ _⟩

theorem flatFieldBytes (h : kind.Of w v) (a : Arena) :
    flatFieldBytes fo w a v = Keleusma.scalarBytes fo w v := by
  cases h <;> rfl

/-- **A scalar field reads back as the value that was packed.** -/
theorem readScalarLe (hw : w.Supported) (h : kind.Of w v) {src field : List UInt8} {off : ℕ}
    (hfield : Keleusma.scalarBytes fo w v = some field)
    (hslice : slice src off (w.size kind) = some field) :
    readScalarLe fo w src off kind = .ok v := by
  have hread : sliceOrOutOfBounds src off (w.size kind) = .ok field := by
    rw [sliceOrOutOfBounds, hslice]
  have hword {n : Int} (hn : w.Fits n) : Word.wrap w.runtimeBitsLog2
      ((Word.ofLeBytes (Word.toLeBytes n w.wordBytes) : Int).bmod (2 ^ (8 * w.wordBytes))) = n := by
    rw [Word.bmod_ofLeBytes_toLeBytes, hw.bmod_of_fits hn le_rfl, Word.wrap,
      hw.bmod_of_fits hn hw.runtime]
  have hle : ¬8 < w.wordBytes := not_lt.2 hw.word_le
  cases h with
  | unit => rfl
  | bool b =>
    cases hfield
    change sliceOrOutOfBounds src off 1 = _ at hread
    cases b <;> simp [Keleusma.readScalarLe, hread, bind, Except.bind, pure, Except.pure]
  | byte b =>
    cases hfield
    change sliceOrOutOfBounds src off 1 = _ at hread
    simp [Keleusma.readScalarLe, hread, bind, Except.bind, pure, Except.pure]
  | int hn =>
    rw [Keleusma.scalarBytes, if_pos hw.word_le] at hfield
    cases hfield
    change sliceOrOutOfBounds src off w.wordBytes = _ at hread
    simp [Keleusma.readScalarLe, hread, hle, bind, Except.bind, pure, Except.pure, hword hn]
  | fixed hn =>
    rw [Keleusma.scalarBytes, if_pos hw.word_le] at hfield
    cases hfield
    change sliceOrOutOfBounds src off w.wordBytes = _ at hread
    simp [Keleusma.readScalarLe, hread, hle, bind, Except.bind, pure, Except.pure, hword hn]

end ScalarKind.Of

/-! ## Bodies -/

/-- **Packing values of known bytes** leaves a body of these bytes, padded with zeros, which later
allocations keep. -/
theorem packFlatInArena_ok {values : List (Value F)} {sizes : List ℕ} {fields : List (List UInt8)}
    {minBytes size : ℕ} {a : Arena} (hground : a.Grounded) (ho : a.Ordered)
    (hsizes : values.mapM (flatFieldSize w) = some sizes)
    (hfields : ∀ b, a.Allocated b → values.mapM (flatFieldBytes fo w b) = some fields)
    (hsize : max sizes.sum minBytes = size) (hmax : size ≤ maxFlatBytes)
    (hroom : a.bottomTop + size ≤ a.topTop) :
    ∃ body a', packFlatInArena fo w values minBytes a = some (some body, a') ∧ a.Allocated a' ∧
      a'.topTop + size = a.topTop ∧ body.len = size ∧
      a'.Secure body
        ⟨fields.flatten ++ List.replicate (size - fields.flatten.length) 0, a'.epoch⟩ := by
  have hlength : fields.flatten.length = sizes.sum := flatFields_length hsizes (hfields a (.refl a))
  unfold packFlatInArena
  simp only [hsizes, hsize]
  rw [if_neg (not_lt.2 hmax)]
  by_cases hzero : size = 0
  · have hnil : fields.flatten = [] := List.length_eq_zero_iff.1 (by omega)
    rw [if_pos hzero]
    refine ⟨_, _, rfl, .refl a, by omega, hzero.symm, ?_⟩
    rw [hnil, hzero]
    exact Arena.secure_empty hground _
  · obtain ⟨b, hb⟩ : ∃ b, a.allocTop size = some b := by
      refine ⟨_, if_pos ⟨by omega, ?_⟩⟩
      omega
    have htop := Arena.allocTop_topTop hb
    obtain ⟨hab, hbottom⟩ := Arena.Allocated.allocTop hb
    have hwritten : (fields.flatten ++
        List.replicate (size - fields.flatten.length) (0 : UInt8)).length = size := by
      rw [List.length_append, List.length_replicate]
      omega
    rw [if_neg hzero, hb]
    simp only [hfields b hab]
    refine ⟨_, _, rfl, Arena.Allocated.allocTop_write hb hwritten.le, htop, rfl, ?_⟩
    have hpersistent := ho.bottomTop
    have hcapacity := ho.topTop
    have hbbase := hab.base
    have hbcap := hab.capacity
    have hbpers := hab.persistentCapacity
    have hread := @Arena.write_read b (b.base + b.topTop)
      (fields.flatten ++ List.replicate (size - fields.flatten.length) 0)
    rw [hwritten] at hread
    refine .used ⟨?_, ?_, Nat.pos_of_ne_zero hzero, .inr ⟨rfl, le_rfl⟩⟩ rfl fun _ => ?_
    · show b.base + b.persistentCapacity ≤ b.base + b.topTop
      omega
    · show b.base + b.topTop + size ≤ b.base + b.capacity
      omega
    · rw [Arena.resolve_eq_some]
      refine ⟨?_, hread⟩
      unfold Arena.addrIsLive
      exact Bool.or_eq_true_iff.2 (.inr (beq_self_eq_true _))

end Keleusma
