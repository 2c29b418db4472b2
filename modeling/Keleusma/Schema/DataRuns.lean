import Keleusma.Schema.DataLayout
import Keleusma.Schema.Flattened

/-!
# What the data layout's records stand for

Every run is cut into pieces that a record can count (`cut`). The records of the slots stand for
their pieces in a row (`slotRecords_inRow`), and so do those of the shared slots
(`sharedRecords_inRow`), whose offsets are told modulo `2 ^ 32` only.
-/

namespace Keleusma.Schema

open Runs

variable {α ρ : Type} {Stands : ℕ → ρ → List α → Prop} {i : ℕ}

/-! ## Cutting a run -/

theorem mem_chunks {n done : ℕ} {c : ℕ × ℕ} (h : c ∈ chunks n done) :
    done ≤ c.1 ∧ 0 < c.2 ∧ c.2 ≤ u16Max ∧ c.1 + c.2 ≤ n := by
  have hcap : 0 < u16Max := by decide
  induction done using chunks.induct n with
  | case1 done hlt ih =>
    rw [chunks, if_pos hlt] at h
    obtain rfl | h := List.mem_cons.mp h
    · dsimp only
      omega
    · have := ih h
      omega
  | case2 done hle =>
    rw [chunks, if_neg hle] at h
    cases h

/-- The pieces that a run is cut into from `done` on. -/
def cutFrom (l : List α) (done : ℕ) : List (List α) :=
  (chunks l.length done).map fun c => (l.drop c.1).take c.2

/-- The pieces that a run is cut into. -/
def cut (l : List α) : List (List α) := cutFrom l 0

theorem cutFrom_of_lt {l : List α} {done : ℕ} (h : done < l.length) : cutFrom l done =
    (l.drop done).take (min (l.length - done) u16Max) ::
      cutFrom l (done + min (l.length - done) u16Max) := by
  rw [cutFrom, chunks, if_pos h]
  rfl

theorem cutFrom_of_le {l : List α} {done : ℕ} (h : l.length ≤ done) : cutFrom l done = [] := by
  rw [cutFrom, chunks, if_neg (Nat.not_lt.mpr h)]
  rfl

theorem flatten_cutFrom (l : List α) (done : ℕ) : (cutFrom l done).flatten = l.drop done := by
  induction done using chunks.induct l.length with
  | case1 done hlt ih =>
    rw [cutFrom_of_lt hlt, List.flatten_cons, ih, ← List.drop_drop, List.take_append_drop]
  | case2 done hle =>
    rw [cutFrom_of_le (Nat.not_lt.mp hle), List.drop_eq_nil_of_le (Nat.not_lt.mp hle)]
    rfl

@[simp] theorem flatten_cut (l : List α) : (cut l).flatten = l := flatten_cutFrom l 0

/-- The records of a run stand for its pieces in a row, when each of them stands for its own. -/
theorem inRow_cut {l : List α} {record : ℕ × ℕ → ρ}
    (h : ∀ c ∈ chunks l.length 0, Stands (i + c.1) (record c) ((l.drop c.1).take c.2)) :
    InRow Stands i ((chunks l.length 0).map record) (cut l) := by
  suffices hfrom : ∀ done, (∀ c ∈ chunks l.length done,
      Stands (i + c.1) (record c) ((l.drop c.1).take c.2)) →
        InRow Stands (i + done) ((chunks l.length done).map record) (cutFrom l done) from hfrom 0 h
  intro done
  induction done using chunks.induct l.length with
  | case1 done hlt ih =>
    intro h
    rw [chunks, if_pos hlt] at h ⊢
    rw [cutFrom_of_lt hlt, List.map_cons]
    refine .cons (h _ List.mem_cons_self) ?_
    have hlen : ((l.drop done).take (min (l.length - done) u16Max)).length =
        min (l.length - done) u16Max := by
      rw [List.length_take, List.length_drop]
      omega
    rw [hlen, Nat.add_assoc]
    exact ih fun c hc => h c (List.mem_cons_of_mem _ hc)
  | case2 done hle =>
    intro _
    rw [chunks, if_neg hle, cutFrom_of_le (Nat.not_lt.mp hle)]
    exact .nil _

/-! ## Slots -/

/-- The names of slots, each stored once. -/
def slotNames (slots : List DataSlot) (before : List String) : List String :=
  (slots.map fun s => (false, s.name)).foldl store before

/-- The record stands for copies of one slot, whose name it has the index of. -/
def SlotStands (l : List String) (_ : ℕ) (r : DataSlotRecord) (p : List DataSlot) : Prop :=
  ∃ s k, p = List.replicate r.run.toNat s ∧ r.run ≠ 0 ∧ r.name = BitVec.ofNat 32 k ∧
    l[k]? = some s.name ∧ r.visibility = visibilityTag s.visibility

/-- The pieces of the slots that share a record. -/
def slotPieces : List DataSlot → List (List DataSlot)
  | [] => []
  | s :: rest =>
    cut (s :: rest.take (slotRun s rest)) ++ slotPieces (rest.drop (slotRun s rest))
termination_by slots => slots.length
decreasing_by
  rw [List.length_drop, List.length_cons]
  omega

@[simp] theorem flatten_slotPieces (slots : List DataSlot) :
    (slotPieces slots).flatten = slots := by
  fun_induction slotPieces slots with
  | case1 => rfl
  | case2 s rest ih =>
    rw [List.flatten_append, flatten_cut, ih, List.cons_append, List.take_append_drop]

/-- A run is made of copies of its first slot. -/
theorem slotRun_eq (s : DataSlot) (rest : List DataSlot) :
    s :: rest.take (slotRun s rest) = List.replicate (slotRun s rest + 1) s := by
  have hprefix : rest.take (slotRun s rest) =
      rest.takeWhile fun t => t.name == s.name && t.visibility == s.visibility :=
    (List.prefix_iff_eq_take.mp (List.takeWhile_prefix _)).symm
  rw [List.replicate_succ, hprefix, List.cons.injEq, List.eq_replicate_iff]
  refine ⟨rfl, rfl, fun t ht => ?_⟩
  have hsame := List.all_eq_true.mp List.all_takeWhile t ht
  obtain ⟨name, visibility⟩ := s
  obtain ⟨name', visibility'⟩ := t
  rw [Bool.and_eq_true, beq_iff_eq, beq_iff_eq] at hsame
  exact congrArg₂ DataSlot.mk hsame.1 hsame.2

theorem store_of_mem {l : List String} {s : String} (h : s ∈ l) : store l (false, s) = l :=
  if_pos (by simpa using h)

theorem mem_store (l : List String) (s : String) : s ∈ store l (false, s) := by
  rw [store]
  split_ifs with h
  · simpa using h
  · exact List.mem_append_right _ List.mem_cons_self

/-- The slots of a run store their name once. -/
theorem slotNames_run (s : DataSlot) (rest : List DataSlot) (l : List String) :
    slotNames (s :: rest) l = slotNames (rest.drop (slotRun s rest)) (store l (false, s.name)) := by
  have hsplit : s :: rest =
      List.replicate (slotRun s rest + 1) s ++ rest.drop (slotRun s rest) := by
    rw [← slotRun_eq, List.cons_append, List.take_append_drop]
  have hcopies (n : ℕ) {l : List String} (h : s.name ∈ l) :
      slotNames (List.replicate n s) l = l := by
    induction n with
    | zero => rfl
    | succ n ih =>
      rw [List.replicate_succ, slotNames, List.map_cons, List.foldl_cons, store_of_mem h]
      exact ih
  rw [hsplit, slotNames, List.map_append, List.foldl_append, List.replicate_succ, List.map_cons,
    List.foldl_cons, ← slotNames, ← slotNames, hcopies _ (mem_store l s.name)]

theorem prefix_slotNames (slots : List DataSlot) (l : List String) : l <+: slotNames slots l :=
  prefix_foldl_store _ _

theorem SlotStands.mono {l l' : List String} (h : l <+: l') {r : DataSlotRecord}
    {p : List DataSlot} (hr : SlotStands l i r p) : SlotStands l' i r p := by
  obtain ⟨s, k, hp, hrun, hname, hk, hvisibility⟩ := hr
  exact ⟨s, k, hp, hrun, hname, getElem?_mono h hk, hvisibility⟩

/-- **The records of the slots stand for their pieces**, and every name that is stored for them has
a record. -/
theorem slotRecords_inRow {names : Names} {l : List String} (h : Stores names l)
    (slots : List DataSlot) (i : ℕ) :
    Stores (slotRecords slots names).2 (slotNames slots l) ∧
      InRow (SlotStands (slotNames slots l)) i (slotRecords slots names).1 (slotPieces slots) ∧
      ∀ k, l.length ≤ k → k < (slotNames slots l).length →
        ∃ r ∈ (slotRecords slots names).1, r.name = BitVec.ofNat 32 k := by
  induction slots using slotPieces.induct generalizing names l i with
  | case1 =>
    rw [slotRecords, slotPieces]
    exact ⟨h, .nil _, fun k hle hlt => absurd hlt (Nat.not_lt.mpr hle)⟩
  | case2 s rest ih =>
    obtain ⟨k, hk, hstores, hget, hnew⟩ := h.intern s.name
    have hlen : (s :: rest.take (slotRun s rest)).length = slotRun s rest + 1 := by
      rw [slotRun_eq, List.length_replicate]
    obtain ⟨hstores', hrow, hused⟩ :=
      ih hstores (i + (cut (s :: rest.take (slotRun s rest))).flatten.length)
    rw [slotRecords, slotPieces, slotNames_run]
    refine ⟨hstores', .append ?_ hrow, fun j hle hlt => ?_⟩
    · rw [← hlen]
      refine inRow_cut fun c hc => ?_
      obtain ⟨-, hpos, hcap, hend⟩ := mem_chunks hc
      have hcount : (BitVec.ofNat 16 c.2).toNat = c.2 :=
        Nat.mod_eq_of_lt (hcap.trans_lt (by decide))
      refine SlotStands.mono (prefix_slotNames _ _) ⟨s, k, ?_, ?_, hk, hget, rfl⟩
      · rw [hcount, slotRun_eq, List.drop_replicate, List.take_replicate]
        congr 1
        omega
      · intro hzero
        have hnat := congrArg BitVec.toNat hzero
        rw [hcount] at hnat
        exact hpos.ne' hnat
    · by_cases hj : j < (store l (false, s.name)).length
      · rw [chunks, if_pos (Nat.succ_pos _), hnew j hle hj]
        exact ⟨_, List.mem_append_left _ List.mem_cons_self, hk⟩
      · obtain ⟨r, hr, hname⟩ := hused j (Nat.not_lt.mp hj) hlt
        exact ⟨r, List.mem_append_right _ hr, hname⟩

/-! ## Shared slots -/

/-- The fields of a shared slot are in the range of their types. -/
def SlotInRange (e : SharedSlotLayout) : Prop := e.offset < 2 ^ 32 ∧ e.kind < 2 ^ 8 ∧ e.len < 2 ^ 16

instance (e : SharedSlotLayout) : Decidable (SlotInRange e) :=
  inferInstanceAs (Decidable (e.offset < 2 ^ 32 ∧ e.kind < 2 ^ 8 ∧ e.len < 2 ^ 16))

/-- The record stands for shared slots from the index `i` on. Offsets are told modulo `2 ^ 32`. -/
structure SharedStands (i : ℕ) (r : SharedSlotRecord) (p : List SharedSlotLayout) : Prop where
  first : r.firstSlot = BitVec.ofNat 32 i
  run : r.run.toNat = p.length
  pos : 0 < p.length
  slot : ∀ k e, p[k]? = some e → e.kind = r.kind.toNat ∧ e.len = r.len.toNat ∧
    e.offset = (r.offset.toNat + k * r.stride.toNat) % 2 ^ 32

/-- The pieces of the shared slots that share a record. -/
def sharedPieces : List SharedSlotLayout → List (List SharedSlotLayout)
  | [] => []
  | a :: rest =>
    cut (a :: rest.take (sharedRun a rest).1) ++ sharedPieces (rest.drop (sharedRun a rest).1)
termination_by shared => shared.length
decreasing_by
  rw [List.length_drop, List.length_cons]
  omega

@[simp] theorem flatten_sharedPieces (shared : List SharedSlotLayout) :
    (sharedPieces shared).flatten = shared := by
  fun_induction sharedPieces shared with
  | case1 => rfl
  | case2 a rest ih =>
    rw [List.flatten_append, flatten_cut, ih, List.cons_append, List.take_append_drop]

theorem eq_of_wrappingSub {x y d : ℕ} (hx : x < 2 ^ 32) (h : wrappingSub x y = d) :
    x = (y + d) % 2 ^ 32 := by
  subst h
  rw [wrappingSub, BitVec.toNat_sub, BitVec.toNat_ofNat, BitVec.toNat_ofNat]
  omega

/-- The slots that go on with a run have its kind, its length and its distance. -/
theorem strideRun_slot {a : SharedSlotLayout} {d p : ℕ} {rest : List SharedSlotLayout}
    (hrange : ∀ e ∈ rest, SlotInRange e) {j : ℕ} {e : SharedSlotLayout} (he : rest[j]? = some e)
    (hj : j < strideRun a d p rest) :
    e.kind = a.kind ∧ e.len = a.len ∧ e.offset = (p + (j + 1) * d) % 2 ^ 32 := by
  induction rest generalizing p j with
  | nil => cases he
  | cons c rest ih =>
    rw [strideRun] at hj
    split_ifs at hj with hstop
    · exact absurd hj (Nat.not_lt_zero j)
    rw [not_or, not_or, not_not, not_not, not_not] at hstop
    obtain ⟨hkind, hlen, hdist⟩ := hstop
    have hc := eq_of_wrappingSub (hrange c List.mem_cons_self).1 hdist
    cases j with
    | zero =>
      obtain rfl := Option.some.inj he
      rw [Nat.zero_add, Nat.one_mul]
      exact ⟨hkind, hlen, hc⟩
    | succ j =>
      obtain ⟨hkind', hlen', hoffset⟩ :=
        ih (fun e he => hrange e (List.mem_cons_of_mem _ he)) he (Nat.lt_of_succ_lt_succ hj)
      refine ⟨hkind', hlen', ?_⟩
      rw [hoffset, hc, Nat.mod_add_mod, Nat.add_mul (j + 1), Nat.one_mul, Nat.add_assoc,
        Nat.add_comm d]

theorem strideRun_le (a : SharedSlotLayout) (d p : ℕ) (rest : List SharedSlotLayout) :
    strideRun a d p rest ≤ rest.length := by
  induction rest generalizing p with
  | nil => exact Nat.le_refl 0
  | cons c rest ih =>
    rw [strideRun]
    split_ifs
    · exact Nat.zero_le _
    · exact Nat.succ_le_succ (ih c.offset)

/-- What a run is: slots of one kind and one length at a distance that 16 bits tell. -/
theorem sharedRun_spec {a : SharedSlotLayout} {rest : List SharedSlotLayout}
    (hrange : ∀ e ∈ a :: rest, SlotInRange e) :
    (sharedRun a rest).1 ≤ rest.length ∧ (sharedRun a rest).2 ≤ u16Max ∧
      ∀ j e, (a :: rest)[j]? = some e → j ≤ (sharedRun a rest).1 → e.kind = a.kind ∧
        e.len = a.len ∧ e.offset = (a.offset + j * (sharedRun a rest).2) % 2 ^ 32 := by
  have hself : a.offset = (a.offset + 0 * (sharedRun a rest).2) % 2 ^ 32 := by
    rw [Nat.zero_mul, Nat.add_zero, Nat.mod_eq_of_lt (hrange a List.mem_cons_self).1]
  have hsingle : ∀ j e, (a :: rest)[j]? = some e → j ≤ 0 → e.kind = a.kind ∧ e.len = a.len ∧
      e.offset = (a.offset + j * (sharedRun a rest).2) % 2 ^ 32 := by
    intro j e he hj
    obtain rfl := Nat.le_zero.mp hj
    obtain rfl := Option.some.inj he
    exact ⟨rfl, rfl, hself⟩
  cases rest with
  | nil => exact ⟨Nat.le_refl 0, Nat.zero_le _, hsingle⟩
  | cons b rest =>
    by_cases hsame : b.kind = a.kind ∧ b.len = a.len
    · by_cases hfits : wrappingSub b.offset a.offset ≤ u16Max
      · have hrun : sharedRun a (b :: rest) =
            (strideRun a (wrappingSub b.offset a.offset) a.offset (b :: rest),
              wrappingSub b.offset a.offset) := by
          rw [sharedRun, if_pos hsame, strideRun]
          simp [hsame, hfits]
        rw [hrun] at hself ⊢
        refine ⟨strideRun_le .., hfits, fun j e he hj => ?_⟩
        cases j with
        | zero =>
          obtain rfl := Option.some.inj he
          exact ⟨rfl, rfl, hself⟩
        | succ j =>
          exact strideRun_slot (fun e he => hrange e (List.mem_cons_of_mem _ he)) he hj
      · have hrun : sharedRun a (b :: rest) = (0, 0) := by
          rw [sharedRun, if_pos hsame]
          exact if_neg hfits
        rw [hrun] at hsingle ⊢
        exact ⟨Nat.zero_le _, Nat.zero_le _, hsingle⟩
    · have hrun : sharedRun a (b :: rest) = (0, 0) := if_neg hsame
      rw [hrun] at hsingle ⊢
      exact ⟨Nat.zero_le _, Nat.zero_le _, hsingle⟩

/-- **The records of the shared slots stand for their pieces in a row.** -/
theorem sharedRecords_inRow {shared : List SharedSlotLayout}
    (hrange : ∀ e ∈ shared, SlotInRange e) (i : ℕ) :
    InRow SharedStands i (sharedRecords i shared) (sharedPieces shared) := by
  induction shared using sharedPieces.induct generalizing i with
  | case1 =>
    rw [sharedRecords, sharedPieces]
    exact .nil i
  | case2 a rest ih =>
    obtain ⟨hle, hstride, hslot⟩ := sharedRun_spec hrange
    have hlen : (a :: rest.take (sharedRun a rest).1).length = (sharedRun a rest).1 + 1 := by
      rw [List.length_cons, List.length_take, Nat.min_eq_left hle]
    rw [sharedRecords, sharedPieces]
    refine .append ?_ ?_
    · rw [← hlen]
      refine inRow_cut fun c hc => ?_
      obtain ⟨-, hpos, hcap, hend⟩ := mem_chunks hc
      have hcount : (BitVec.ofNat 16 c.2).toNat = c.2 :=
        Nat.mod_eq_of_lt (hcap.trans_lt (by decide))
      have hplen : (((a :: rest.take (sharedRun a rest).1).drop c.1).take c.2).length = c.2 := by
        rw [List.length_take, List.length_drop]
        omega
      obtain ⟨-, hkind, hlength⟩ := hrange a List.mem_cons_self
      refine ⟨rfl, hcount.trans hplen.symm, hpos.trans_eq hplen.symm, fun k e he => ?_⟩
      have hk : k < c.2 := hplen ▸ (List.getElem?_eq_some_iff.mp he).1
      have hget : (a :: rest)[c.1 + k]? = some e := by
        rw [List.getElem?_take_of_lt hk, List.getElem?_drop, ← List.take_succ_cons,
          List.getElem?_take_of_lt (by omega)] at he
        exact he
      obtain ⟨hkind', hlength', hoffset'⟩ := hslot _ e hget (by omega)
      refine ⟨?_, ?_, ?_⟩
      · rw [hkind']
        exact (Nat.mod_eq_of_lt hkind).symm
      · rw [hlength']
        exact (Nat.mod_eq_of_lt hlength).symm
      · rw [hoffset', BitVec.toNat_add, BitVec.toNat_mul, BitVec.toNat_ofNat, BitVec.toNat_ofNat,
          BitVec.toNat_ofNat, BitVec.toNat_ofNat,
          Nat.mod_eq_of_lt (show (sharedRun a rest).2 < 2 ^ 16 from hstride.trans_lt (by decide)),
          Nat.mod_add_mod, Nat.add_mul, ← Nat.add_assoc]
        simp only [Nat.add_mod, Nat.mul_mod, Nat.mod_mod]
    · rw [flatten_cut, hlen]
      exact ih (fun e he => hrange e (List.mem_cons_of_mem _ (List.mem_of_mem_drop he))) _

/-! ## Reading the shared slots -/

section Shared

open DataLayoutTable Outcomes
open Overflow (checkedAdd_eq_some checkedMul_eq_some)

variable {r : SharedSlotRecord} {p : List SharedSlotLayout}

/-- The offset of a slot of a run is told when it does not overflow. -/
theorem runOffset_eq_some {k o : ℕ} (hk : k < r.run.toNat) : runOffset r k = some o ↔
    r.offset.toNat + k * r.stride.toNat < 2 ^ 32 ∧ o = r.offset.toNat + k * r.stride.toNat := by
  have hrun := r.run.isLt
  have hmul : k * r.stride.toNat < 2 ^ 16 * 2 ^ 16 :=
    Nat.mul_lt_mul'' (hk.trans hrun) r.stride.isLt
  rw [runOffset, Option.bind_eq_bind, Option.bind_eq_some_iff]
  constructor
  · rintro ⟨delta, hdelta, ho⟩
    obtain ⟨-, rfl⟩ := checkedMul_eq_some.mp hdelta
    exact checkedAdd_eq_some.mp ho
  · exact fun h => ⟨_, checkedMul_eq_some.mpr ⟨hmul, rfl⟩, checkedAdd_eq_some.mpr h⟩

/-- No offset of a piece is below the one before. -/
def Ascending (p : List SharedSlotLayout) : Prop := (p.map (·.offset)).Pairwise (· ≤ ·)

instance (p : List SharedSlotLayout) : Decidable (Ascending p) :=
  inferInstanceAs (Decidable ((p.map (·.offset)).Pairwise (· ≤ ·)))

/-- **Offsets that ascend do not wrap**: what the record tells is then exact. -/
theorem SharedStands.ascending_iff (h : SharedStands i r p) :
    Ascending p ↔ ∀ k < p.length, r.offset.toNat + k * r.stride.toNat < 2 ^ 32 := by
  have hslot (k : ℕ) (hk : k < p.length) :=
    (h.slot k _ (List.getElem?_eq_getElem hk)).2.2
  rw [Ascending, List.pairwise_iff_getElem]
  simp only [List.length_map, List.getElem_map]
  constructor
  · intro hasc k hk
    induction k with
    | zero =>
      rw [Nat.zero_mul, Nat.add_zero]
      exact r.offset.isLt
    | succ k ih =>
      have hstep := hasc k (k + 1) (Nat.lt_of_succ_lt hk) hk (Nat.lt_succ_self k)
      have hstride := r.stride.isLt
      have hbefore := ih (Nat.lt_of_succ_lt hk)
      rw [hslot k, hslot (k + 1), Nat.mod_eq_of_lt hbefore, Nat.succ_mul] at hstep
      rw [Nat.succ_mul]
      omega
  · intro hexact j k hj hk hjk
    rw [hslot j hj, hslot k hk, Nat.mod_eq_of_lt (hexact j hj), Nat.mod_eq_of_lt (hexact k hk)]
    exact Nat.add_le_add_left (Nat.mul_le_mul_right _ hjk.le) _

theorem length_of_expandRun {q : List SharedSlotLayout} (h : expandRun r = .ok q) :
    q.length = r.run.toNat := by
  rw [expandRun, mapM_eq_ok_iff] at h
  rw [← h.length_eq, List.length_range]

/-- **A run is expanded to its piece exactly when the offsets ascend.** -/
theorem SharedStands.expandRun_iff (h : SharedStands i r p) :
    expandRun r = .ok p ↔ Ascending p := by
  rw [h.ascending_iff, expandRun, mapM_eq_ok_iff, List.forall₂_iff_get]
  have hread (k : ℕ) (hk : k < p.length) :
      (do return SharedSlotLayout.mk (← okOr .badIndex (runOffset r k)) r.kind.toNat r.len.toNat) =
        (.ok p[k] : Except SchemaError SharedSlotLayout) ↔
          r.offset.toNat + k * r.stride.toNat < 2 ^ 32 := by
    obtain ⟨hkind, hlen, hoffset⟩ := h.slot k _ (List.getElem?_eq_getElem hk)
    have hrun : k < r.run.toNat := h.run ▸ hk
    rw [bind_eq_ok_iff]
    constructor
    · rintro ⟨o, ho, -⟩
      exact ((runOffset_eq_some hrun).mp (okOr_eq_ok.mp ho)).1
    · intro hlt
      refine ⟨_, okOr_eq_ok.mpr ((runOffset_eq_some hrun).mpr ⟨hlt, rfl⟩), ?_⟩
      rw [Nat.mod_eq_of_lt hlt] at hoffset
      rw [← hoffset, ← hkind, ← hlen]
      rfl
  constructor
  · rintro ⟨-, hget⟩ k hk
    have hk' : k < (List.range r.run.toNat).length := by rwa [List.length_range, h.run]
    have hentry := hget k hk' hk
    rw [List.get_eq_getElem, List.getElem_range] at hentry
    exact (hread k hk).mp hentry
  · intro hlt
    refine ⟨by rw [List.length_range, h.run], fun k _ hk => ?_⟩
    rw [List.get_eq_getElem, List.getElem_range]
    exact (hread k hk).mpr (hlt k hk)

end Shared

end Keleusma.Schema
