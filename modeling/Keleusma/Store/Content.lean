import Keleusma.Runtime.Calm
import Keleusma.Swap.Replace

/-!
# What a private slot holds

The content of a value is its kind and its bytes: the value itself, with the body of a flat
composite left out, and the bytes that its handles refer to (`Value.content`). A slot of private
data keeps the content last stored to it. There are three ways in which its bytes can be safe
(`Placed`): they lie outside the arena; they are the body of a composite, in the region of the
persistent pool that belongs to the slot; or they are text in the reclaimable region, which goes
stale with the next reset and keeps its bytes until then.

`Shows` compares a value with a record of what was stored: the contents agree, or the value is such
a text and its epoch is over.
-/

namespace Keleusma

variable {F : Type}

/-! ## Contents -/

namespace Value

mutual

/-- The handles of a value. -/
def handles : Value F → List Handle
  | kstr h => [h]
  | flat _ body => [body]
  | tuple es => handlesList es
  | array es => handlesList es
  | struct _ fs => handlesFields fs
  | enum _ _ _ _ fs => handlesList fs
  | _ => []

def handlesList : List (Value F) → List Handle
  | [] => []
  | v :: vs => handles v ++ handlesList vs

def handlesFields : List (String × Value F) → List Handle
  | [] => []
  | (_, v) :: fs => handles v ++ handlesFields fs

end

/-- The value without the body of a flat composite. -/
def form : Value F → Value F
  | flat kind _ => flat kind Arena.emptyHandle
  | v => v

end Value

/-- The kind and the bytes of a value; the bytes of a stale handle are missing. -/
structure Content (F : Type) where
  form : Value F
  bytes : List (Option (List UInt8))

/-- The content of a value. -/
def Value.content (a : Arena) (v : Value F) : Content F := ⟨v.form, v.handles.map a.resolve⟩

/-- What was stored to a slot, and in which epoch. -/
structure Record (F : Type) where
  content : Content F
  epoch : ℕ

/-- The record of a value that is stored. -/
def Value.record (a : Arena) (v : Value F) : Record F := ⟨v.content a, a.epoch⟩

/-- A text in the reclaimable region whose epoch is over. -/
def Value.Reclaimed (a : Arena) : Value F → Prop
  | .kstr h => a.addrIsEphemeral h.addr = true ∧ h.epoch < a.epoch
  | _ => False

/-- The value has the recorded content. A text in the reclaimable region may have gone stale since
it was stored. -/
def Record.Shows (r : Record F) (a : Arena) (v : Value F) : Prop :=
  v.content a = r.content ∨ v.form = r.content.form ∧ r.epoch < a.epoch ∧ v.Reclaimed a

/-! ## Where the bytes of a slot lie -/

/-- The bytes of the handle lie outside the arena. -/
def Arena.Outside (a : Arena) (h : Handle) : Prop :=
  a.addrIsEphemeral h.addr = false ∧
    ∀ p, h.addr ≤ p → p < h.addr + h.len → p < a.base ∨ a.base + a.capacity ≤ p

/-- A text in the reclaimable region: its epoch is over, or it is in use. -/
def Arena.HoldsText (a : Arena) (h : Handle) : Prop :=
  a.addrIsEphemeral h.addr = true ∧
    (h.epoch < a.epoch ∨ h.epoch = a.epoch ∧ a.base + a.topTop ≤ h.addr)

/-- The bytes of the value of a slot are safe from everything but a store to the slot. -/
inductive Placed (env : Env F) (a : Arena) (slot : ℕ) : Value F → Prop
  | outside {v : Value F} (h : ∀ body ∈ v.handles, a.Outside body) : Placed env a slot v
  | pooled {kind : CompositeKind} {off len epoch : ℕ}
      (hoff : env.privateCompositePoolOffset slot = some off)
      (hroom : env.privateStorage + off < a.persistentCapacity)
      (hend : off + len ≤ env.privateCompositeSlotEnd off a.persistentCapacity)
      (hcap : env.privateStorage + off + len ≤ a.persistentCapacity) :
      Placed env a slot (.flat kind ⟨a.base + (env.privateStorage + off), len, epoch⟩)
  | text {h : Handle} (hheld : a.HoldsText h) : Placed env a slot (.kstr h)

/-- What a store keeps the content of: a composite that moves into the pool, a value whose bytes
lie outside the arena, and text. -/
inductive Storable (env : Env F) (a : Arena) (slot : ℕ) : Value F → Prop
  | moved {kind : CompositeKind} {body : Handle} {off : ℕ}
      (hoff : env.privateCompositePoolOffset slot = some off) :
      Storable env a slot (.flat kind body)
  | outside {v : Value F} (h : ∀ body ∈ v.handles, a.Outside body) : Storable env a slot v
  | text {h : Handle} (hheld : a.HoldsText h) : Storable env a slot (.kstr h)

/-! ## Bytes that stay -/

section

variable {env : Env F} {a a' : Arena} {slot : ℕ} {v : Value F} {h : Handle}

/-- Bytes outside the reclaimable region are live. -/
theorem Arena.resolve_fixed (hfixed : a.addrIsEphemeral h.addr = false) :
    a.resolve h = some (a.read h.addr h.len) := by
  unfold Arena.resolve Arena.addrIsLive
  rw [hfixed]
  rfl

/-- A handle resolves alike when it is as live as before and the memory under it is the same. -/
theorem Arena.resolve_congr (hlive : a'.addrIsLive h.addr h.epoch = a.addrIsLive h.addr h.epoch)
    (hmem : ∀ p, h.addr ≤ p → p < h.addr + h.len → a'.mem p = a.mem p) :
    a'.resolve h = a.resolve h := by
  have hread : a'.read h.addr h.len = a.read h.addr h.len := by
    unfold Arena.read
    refine List.map_congr_left fun i hi => ?_
    have hlt := List.mem_range.1 hi
    exact hmem _ (by omega) (by omega)
  unfold Arena.resolve
  rw [hlive, hread]

theorem Value.content_congr (hbytes : ∀ body ∈ v.handles, a'.resolve body = a.resolve body) :
    v.content a' = v.content a := by
  unfold Value.content
  rw [List.map_congr_left hbytes]

/-- Outside the reclaimable region the epoch does not count. -/
theorem Arena.addrIsLive_fixed {addr epoch : ℕ} (hfixed : a.addrIsEphemeral addr = false) :
    a.addrIsLive addr epoch = true := by
  unfold Arena.addrIsLive
  rw [hfixed]
  rfl

/-- A handle outside the reclaimable region keeps its bytes when its memory lies there too. -/
theorem Arena.Calm.resolve_fixed (hcalm : a.Calm a') (ho : a.Ordered)
    (hfixed : a.addrIsEphemeral h.addr = false)
    (hmem : ∀ p, h.addr ≤ p → p < h.addr + h.len → a.addrIsEphemeral p = false) :
    a'.resolve h = a.resolve h := by
  refine Arena.resolve_congr ?_ fun p hle hlt => hcalm.fixed ho p (hmem p hle hlt)
  rw [Arena.addrIsLive_fixed hfixed,
    Arena.addrIsLive_fixed (by rw [hcalm.addrIsEphemeral]; exact hfixed)]

theorem Arena.Outside.fixed (hout : a.Outside h) (p : ℕ) (hle : h.addr ≤ p)
    (hlt : p < h.addr + h.len) : a.addrIsEphemeral p = false := by
  rw [Arena.addrIsEphemeral_eq_false]
  have hp := hout.2 p hle hlt
  omega

theorem Arena.Outside.calm (hcalm : a.Calm a') (hout : a.Outside h) : a'.Outside h := by
  refine ⟨by rw [hcalm.addrIsEphemeral]; exact hout.1, ?_⟩
  rw [hcalm.base, hcalm.capacity]
  exact hout.2

theorem Arena.HoldsText.calm (hcalm : a.Calm a') (hheld : a.HoldsText h) : a'.HoldsText h := by
  refine ⟨by rw [hcalm.addrIsEphemeral]; exact hheld.1, ?_⟩
  have hle := hcalm.epoch
  obtain hover | ⟨hepoch, hused⟩ := hheld.2
  · exact .inl (by omega)
  · by_cases hsame : a'.epoch = a.epoch
    · have htop := hcalm.topTop hsame
      exact .inr ⟨by omega, by rw [hcalm.base]; omega⟩
    · exact .inl (by omega)

/-- A slot's bytes stay safe. -/
theorem Placed.calm (hcalm : a.Calm a') (hplaced : Placed env a slot v) :
    Placed env a' slot v := by
  cases hplaced with
  | outside hout => exact .outside fun body hbody => (hout body hbody).calm hcalm
  | pooled hoff hroom hend hcap =>
    rw [← hcalm.base]
    refine .pooled hoff ?_ ?_ ?_
    · rwa [hcalm.persistentCapacity]
    · rwa [hcalm.persistentCapacity]
    · rwa [hcalm.persistentCapacity]
  | text hheld => exact .text (hheld.calm hcalm)

/-- **A slot keeps its bytes through calm changes**, but for a text that a reset reclaims. -/
theorem Placed.content_calm (hcalm : a.Calm a') (ho : a.Ordered) (hplaced : Placed env a slot v) :
    v.content a' = v.content a ∨ a.epoch < a'.epoch ∧ v.Reclaimed a' := by
  cases hplaced with
  | outside hout =>
    exact .inl (Value.content_congr fun body hbody =>
      hcalm.resolve_fixed ho (hout body hbody).1 (hout body hbody).fixed)
  | pooled hoff hroom hend hcap =>
    refine .inl (Value.content_congr fun body hbody => ?_)
    rw [Value.handles, List.mem_singleton] at hbody
    rw [hbody]
    refine hcalm.resolve_fixed ho ?_ fun p hle hlt => ?_
    · rw [Arena.addrIsEphemeral_eq_false]
      dsimp only
      omega
    · rw [Arena.addrIsEphemeral_eq_false]
      dsimp only at hle hlt
      omega
  | @text h hheld =>
    have hlater := (hheld.calm hcalm).2
    have heph' : a'.addrIsEphemeral h.addr = true := (hheld.calm hcalm).1
    by_cases hsame : a'.epoch = a.epoch
    · refine .inl (Value.content_congr fun body hbody => ?_)
      rw [Value.handles, List.mem_singleton] at hbody
      rw [hbody]
      have hlive : a'.addrIsLive h.addr h.epoch = a.addrIsLive h.addr h.epoch := by
        unfold Arena.addrIsLive
        rw [hcalm.addrIsEphemeral, hsame]
      obtain hover | ⟨-, hused⟩ := hheld.2
      · have hdead : a.addrIsLive h.addr h.epoch = false := by
          unfold Arena.addrIsLive
          rw [hheld.1]
          simp only [Bool.not_true, Bool.false_or, beq_eq_false_iff_ne]
          omega
        unfold Arena.resolve
        rw [hlive, hdead]
        rfl
      · exact Arena.resolve_congr hlive fun p hle _ => hcalm.used ho hsame p (by omega)
    · have hle := hcalm.epoch
      refine .inr ⟨by omega, heph', ?_⟩
      obtain hover | ⟨hepoch, -⟩ := hheld.2
      · omega
      · omega

theorem Record.Shows.calm {r : Record F} (hcalm : a.Calm a') (ho : a.Ordered)
    (hplaced : Placed env a slot v) (hepoch : r.epoch ≤ a.epoch) (hshows : r.Shows a v) :
    r.Shows a' v := by
  have hle := hcalm.epoch
  obtain hsame | ⟨hform, hpast, hover⟩ := hshows
  · obtain hcontent | ⟨hnext, hover⟩ := hplaced.content_calm hcalm ho
    · exact .inl (hcontent.trans hsame)
    · refine .inr ⟨?_, by omega, hover⟩
      rw [← hsame]
      rfl
  · refine .inr ⟨hform, by omega, ?_⟩
    cases v with
    | kstr h =>
      obtain ⟨heph, hepoch⟩ := hover
      exact ⟨by rw [hcalm.addrIsEphemeral]; exact heph, by omega⟩
    | _ => exact hover.elim

end

end Keleusma
