import Keleusma.Schema.Readings

/-!
# No read out of bounds

On a table that `parse` accepted, neither decoder panics: the children of a composite lie inside
the table, and the index of a field's name does not overflow, since the name before it was found in
a table of less than `2 ^ 32` names.
-/

namespace Keleusma.Schema

open KeleusmaWire (Byte)
open Outcomes

variable {bits : ℕ} {t : ConstTable}

theorem okOr_avoids {α : Type} {e e' : SchemaError} (h : e' ≠ e) (o : Option α) :
    Avoids e (okOr e' o) := by
  cases o with
  | none => exact .error h
  | some a => exact .ok e a

/-- The number of names of a table fits in 32 bits. -/
theorem names_lt_of_parse {bytes : List Byte} (h : ConstTable.parse bits bytes = .ok t) :
    t.names.len < 2 ^ 32 := by
  obtain ⟨view, -, h⟩ := bind_eq_ok_iff.mp h
  obtain ⟨_, -, h⟩ := bind_eq_ok_iff.mp h
  obtain ⟨_, -, h⟩ := bind_eq_ok_iff.mp h
  obtain ⟨_, -, h⟩ := bind_eq_ok_iff.mp h
  obtain ⟨names, hnames, h⟩ := bind_eq_ok_iff.mp h
  obtain ⟨_, -, h⟩ := bind_eq_ok_iff.mp h
  obtain ⟨_, -, h⟩ := bind_eq_ok_iff.mp h
  obtain ⟨_, -, h⟩ := bind_eq_ok_iff.mp h
  obtain ⟨_, -, h⟩ := bind_eq_ok_iff.mp h
  obtain ⟨_, -, h⟩ := bind_eq_ok_iff.mp h
  obtain ⟨_, -, h⟩ := bind_eq_ok_iff.mp h
  obtain ⟨_, -, h⟩ := bind_eq_ok_iff.mp h
  cases h
  exact KeleusmaWire.WireView.len_records_lt (inContainer_eq_ok.mp hnames)

theorem lt_names_of_nameOf {index : BitVec 32} {s : String} (h : t.nameOf bits index = .ok s) :
    index.toNat < t.names.len := by
  obtain ⟨slice, hslice, -⟩ := bind_eq_ok_iff.mp h
  rw [okOr_eq_ok, ConstTable.nameBytes, Option.bind_eq_bind, Option.bind_eq_some_iff] at hslice
  obtain ⟨r, hr, -⟩ := hslice
  exact KeleusmaWire.RecordTable.lt_len_of_getAs hr

theorem nameOf_avoids (index : BitVec 32) : Avoids .panicked (t.nameOf bits index) :=
  .bind (okOr_avoids (by decide) _) fun _ _ => okOr_avoids (by decide) _

theorem namedFields_avoids (hnames : t.names.len < 2 ^ 32) {first : BitVec 32} {k : ℕ}
    (hk : first.toNat + k < 2 ^ 32) (values : List ConstValue) :
    Avoids .panicked (t.namedFields bits first k values) := by
  induction values generalizing k with
  | nil => exact .ok _ _
  | cons v values ih =>
    rw [ConstTable.namedFields, if_neg (not_le.mpr hk)]
    refine .bind (nameOf_avoids _) fun name hname => ?_
    have hlt := lt_names_of_nameOf hname
    rw [BitVec.toNat_add, BitVec.toNat_ofNat, Nat.mod_eq_of_lt (by omega : k < 2 ^ 32),
      Nat.mod_eq_of_lt hk] at hlt
    exact .bind (ih (by omega)) fun _ _ => .ok _ _

theorem scalarValue_avoids (r : ConstRecord) : Avoids .panicked (t.scalarValue bits r) := by
  rw [ConstTable.scalarValue]
  split_ifs
  case neg => exact .error (by rintro ⟨⟩)
  all_goals first | exact .ok _ _ | exact .bind (nameOf_avoids _) fun _ _ => .ok _ _

/-- A record panics only if its children do. -/
theorem entryValue_avoids {σ : Type} (hnames : t.names.len < 2 ^ 32) {i : ℕ} {r : ConstRecord}
    {take : σ → Except SchemaError (List ConstValue × σ)} {b : σ}
    (htake : r.isComposite → Avoids .panicked (take b)) :
    Avoids .panicked (t.entryValue bits i r take b) := by
  rw [ConstTable.entryValue]
  split_ifs with htuple harray hstruct henum
  · exact .bind (htake (isCompositeTag_iff.mpr (.inl htuple))) fun _ _ => .ok _ _
  · exact .bind (htake (isCompositeTag_iff.mpr (.inr (.inl harray)))) fun _ _ => .ok _ _
  · refine .bind (okOr_avoids (by decide) _) fun aux _ => ?_
    refine .bind (htake (isCompositeTag_iff.mpr (.inr (.inr (.inl hstruct))))) fun taken _ => ?_
    refine .bind (namedFields_avoids hnames aux.fieldNamesFirst.isLt _) fun _ _ => ?_
    exact .bind (nameOf_avoids _) fun _ _ => .ok _ _
  · refine .bind (okOr_avoids (by decide) _) fun aux _ => ?_
    refine .bind (nameOf_avoids _) fun _ _ => .bind (nameOf_avoids _) fun _ _ => ?_
    exact .bind (htake (isCompositeTag_iff.mpr (.inr (.inr (.inr henum))))) fun _ _ => .ok _ _
  · exact .bind (scalarValue_avoids r) fun _ _ => .ok _ _

/-! ## One constant -/

theorem collect_avoids (work : List ℕ) (reachable : Finset ℕ) :
    Avoids .panicked (t.collect bits work reachable) := by
  induction work, reachable using ConstTable.collect.induct bits t with
  | case1 reachable =>
    rw [ConstTable.collect]
    exact .ok _ _
  | case2 i work reachable hmem ih =>
    rw [ConstTable.collect, if_pos hmem]
    exact ih
  | case3 i work reachable hmem hrec =>
    rw [ConstTable.collect, if_neg hmem]
    split
    · exact .error (by rintro ⟨⟩)
    · simp_all
  | case4 i work reachable hmem r hrec hall ih =>
    rw [ConstTable.collect, if_neg hmem]
    split
    · exact .error (by rintro ⟨⟩)
    · rename_i r' hrec'
      obtain rfl : r = r' := Option.some.inj (hrec.symm.trans hrec')
      rw [if_pos hall]
      exact ih
  | case5 i work reachable hmem r hrec hall =>
    rw [ConstTable.collect, if_neg hmem]
    split
    · exact .error (by rintro ⟨⟩)
    · rename_i r' hrec'
      obtain rfl : r = r' := Option.some.inj (hrec.symm.trans hrec')
      rw [if_neg hall]
      exact .error (by rintro ⟨⟩)

theorem removeRun_avoids (first n : ℕ) (built : ℕ → Option ConstValue) :
    Avoids .panicked (ConstTable.removeRun first n built) := by
  induction n generalizing first built with
  | zero => exact .ok _ _
  | succ n ih =>
    exact .bind (okOr_avoids (by decide) _) fun _ _ => .bind (ih _ _) fun _ _ => .ok _ _

theorem buildEach_avoids (hnames : t.names.len < 2 ^ 32) (is : List ℕ)
    (built : ℕ → Option ConstValue) : Avoids .panicked (t.buildEach bits is built) := by
  induction is generalizing built with
  | nil => exact .ok _ _
  | cons i is ih =>
    refine .bind (okOr_avoids (by decide) _) fun r _ => ?_
    exact .bind (entryValue_avoids hnames fun _ => removeRun_avoids _ _ _) fun _ _ => ih _

/-- **One constant is rebuilt without a panic.** -/
theorem value_avoids (hnames : t.names.len < 2 ^ 32) (root : ℕ) :
    Avoids .panicked (t.value bits root) := by
  rw [ConstTable.value]
  split_ifs
  · exact .error (by rintro ⟨⟩)
  · refine .bind (okOr_avoids (by decide) _) fun r _ => ?_
    split_ifs
    · exact scalarValue_avoids r
    · exact .bind (collect_avoids _ _) fun _ _ => .bind (buildEach_avoids hnames _ _) fun _ _ =>
        okOr_avoids (by decide) _

/-! ## Every constant -/

theorem takeRun_avoids {missing : SchemaError} (hmissing : missing ≠ .panicked) {first n : ℕ}
    {built : List (Option ConstValue)} (h : ∀ k < n, first + k < built.length) :
    Avoids .panicked (takeRun missing first n built) := by
  induction n generalizing first built with
  | zero => exact .ok _ _
  | succ n ih =>
    rw [takeRun]
    split
    · rename_i hnone
      have hlt := h 0 (Nat.succ_pos n)
      have hle := List.getElem?_eq_none_iff.mp hnone
      omega
    · exact .error hmissing
    · refine .bind (ih fun k hk => ?_) fun _ _ => .ok _ _
      rw [List.length_set]
      have := h (k + 1) (by omega)
      omega

theorem sweep_length {is : List ℕ} {built built' : List (Option ConstValue)}
    (h : sweep bits t is built = .ok built') : built'.length = built.length := by
  induction is generalizing built with
  | nil =>
    cases h
    rfl
  | cons i is ih =>
    rw [sweep] at h
    obtain ⟨r, -, h⟩ := bind_eq_ok_iff.mp h
    obtain ⟨⟨v, after⟩, hentry, h⟩ := bind_eq_ok_iff.mp h
    rw [ih h, List.length_set, entryValue_length hentry]

theorem sweep_avoids (hnames : t.names.len < 2 ^ 32) (hfwd : Forward bits t) (is : List ℕ)
    {built : List (Option ConstValue)} (hlen : built.length = t.len) :
    Avoids .panicked (sweep bits t is built) := by
  induction is generalizing built with
  | nil => exact .ok _ _
  | cons i is ih =>
    rw [sweep]
    refine .bind (okOr_avoids (by decide) _) fun r hrec => ?_
    refine .bind (entryValue_avoids hnames fun hr => takeRun_avoids (by decide) fun k hk => ?_)
      fun result hentry => ih ?_
    · rw [hlen]
      refine (hfwd i r (okOr_eq_ok.mp hrec) _ ?_).2
      rw [childIndices_composite hr]
      exact List.mem_map.mpr ⟨k, List.mem_range.mpr hk, rfl⟩
    · rw [List.length_set, entryValue_length hentry, hlen]

theorem checkRange_avoids (range : ConstRange) : Avoids .panicked (checkRange bits t range) := by
  rw [checkRange]
  split_ifs
  · exact .error (by rintro ⟨⟩)
  · refine .bind (okOr_avoids (by decide) _) fun stop _ => ?_
    split_ifs
    · exact .error (by rintro ⟨⟩)
    · exact .ok _ _

theorem le_of_checkRange {range : ConstRange} (h : checkRange bits t range = .ok ()) :
    range.1.toNat + range.2.toNat ≤ t.len := by
  rw [checkRange] at h
  split_ifs at h
  obtain ⟨stop, hstop, h⟩ := bind_eq_ok_iff.mp h
  obtain ⟨-, rfl⟩ := Overflow.checkedAdd_eq_some.mp (okOr_eq_ok.mp hstop)
  split_ifs at h with hlt
  exact not_lt.mp hlt

theorem takePools_avoids {ranges : List ConstRange} {built : List (Option ConstValue)}
    (h : ∀ range ∈ ranges, range.1.toNat + range.2.toNat ≤ built.length) :
    Avoids .panicked (takePools ranges built) := by
  induction ranges generalizing built with
  | nil => exact .ok _ _
  | cons range ranges ih =>
    have hrange := h range List.mem_cons_self
    refine .bind (takeRun_avoids (by decide) fun k hk => ?_) fun taken htake => ?_
    · omega
    refine .bind (ih fun r hr => ?_) fun _ _ => .ok _ _
    rw [takeRun_length htake]
    exact h r (List.mem_cons_of_mem _ hr)

/-- **Every pool is rebuilt without a panic.** -/
theorem decodeConstantPools_avoids {bytes : List Byte} (hparse : ConstTable.parse bits bytes = .ok t)
    (ranges : List ConstRange) : Avoids .panicked (decodeConstantPools bits bytes ranges) := by
  rw [decodeConstantPools, hparse]
  show Avoids .panicked (ranges.forM (checkRange bits t) >>= _)
  refine .bind (.forM fun range _ => checkRange_avoids range) fun _ hranges => ?_
  refine .bind (sweep_avoids (names_lt_of_parse hparse) (forward_of_parse hparse) _
    (List.length_replicate ..)) fun built hsweep => takePools_avoids fun range hrange => ?_
  rw [sweep_length hsweep, List.length_replicate]
  exact le_of_checkRange (forM_eq_ok_iff.mp hranges range hrange)

end Keleusma.Schema
