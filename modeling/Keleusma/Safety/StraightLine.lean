import Keleusma.Control.Straight
import Keleusma.Runtime.Straight
import Keleusma.Safety.Heights

/-!
# Straight-line code along runs

When the innermost frame stands behind a piece of straight-line code, it has executed all of it: the
operand stack is what the code makes of the stack that it began with (`straight_run`).
-/

namespace Keleusma

variable {F : Type} {env : Env F} {ops : List Op} {j ip ip' : ℕ} {op : Op}

/-- A piece of straight-line code. -/
def StraightCode (ops : List Op) (j ip : ℕ) : Prop :=
  ∀ p, j ≤ p → p < ip → (∃ op, ops[p]? = some op ∧ op.isQuick = true) ∧
    ops[p + 1]? ≠ some .endIf

/-- Straight-line code takes a stack at a position to another one further on. -/
inductive Ran (env : Env F) (chunkIdx base j : ℕ) (st : List (Value F)) :
    ℕ → List (Value F) → Prop
  | start : Ran env chunkIdx base j st j st
  | next {ip : ℕ} {op : Op} {st₁ st₂ : List (Value F)} (h : Ran env chunkIdx base j st ip st₁)
      (hop : (env.ops chunkIdx)[ip]? = some op) (hq : Quick env chunkIdx base op st₁ st₂) :
      Ran env chunkIdx base j st (ip + 1) st₂

/-- No straight-line code ends at a position. -/
def Fresh (ops : List Op) (ip : ℕ) : Prop := ∀ j ≤ ip, StraightCode ops j ip → j = ip

/-- A frame with the given stack has executed the straight-line code behind which it stands. -/
def StraightRan (env : Env F) (stack : List (Value F)) (f : CallFrame) : Prop :=
  ∀ j ≤ f.ip, StraightCode (env.ops f.chunkIdx) j f.ip →
    ∃ st, Ran env f.chunkIdx f.base j st f.ip stack

/-- The frames other than the running one stand behind no straight-line code. -/
def StraightInv (env : Env F) (cfg : Config F) : Prop :=
  ∀ f rest, cfg.vm.frames = f :: rest →
    (if cfg.status = .running then StraightRan env cfg.vm.stack f
      else Fresh (env.ops f.chunkIdx) f.ip) ∧
    ∀ g ∈ rest, Fresh (env.ops g.chunkIdx) g.ip

theorem Ran.le {chunkIdx base : ℕ} {st st' : List (Value F)}
    (h : Ran env chunkIdx base j st ip st') : j ≤ ip := by
  induction h with
  | start => exact le_rfl
  | next _ _ _ ih => exact ih.trans (Nat.le_succ _)

theorem Ran.eq {chunkIdx base : ℕ} {st st' : List (Value F)}
    (h : Ran env chunkIdx base j st j st') : st' = st := by
  generalize hip : j = ip at h
  cases h with
  | start => rfl
  | next h _ _ => exact absurd h.le (by omega)

/-- The last instruction of a piece of straight-line code. -/
theorem Ran.last {chunkIdx base : ℕ} {st st' : List (Value F)}
    (h : Ran env chunkIdx base j st (ip + 1) st') (hj : j ≤ ip)
    (hop : (env.ops chunkIdx)[ip]? = some op) :
    ∃ st₁, Ran env chunkIdx base j st ip st₁ ∧ Quick env chunkIdx base op st₁ st' := by
  generalize hq : ip + 1 = q at h
  cases h with
  | start => exact absurd hj (by omega)
  | next h hop' hquick =>
    obtain rfl := Nat.succ.inj hq
    cases hop.symm.trans hop'
    exact ⟨_, h, hquick⟩

theorem StraightCode.init (h : StraightCode ops j (ip + 1)) : StraightCode ops j ip :=
  fun p hj hp => h p hj (Nat.lt_succ_of_lt hp)

theorem isLanding_of_isQuick (h : op.isQuick = true) : op.isLanding = false := by
  cases op <;> first | rfl | cases h

/-- Where control comes to behind an instruction of another kind. -/
theorem fresh_next (hw : WellNested ops) (hop : ops[ip]? = some op) (hq : op.isQuick = false)
    (hn : ip' ∈ op.next ip) : Fresh ops ip' := by
  intro j hj hcode
  rcases hj.eq_or_lt with heq | hlt
  · exact heq
  obtain ⟨p, rfl⟩ : ∃ p, ip' = p + 1 := ⟨ip' - 1, by omega⟩
  obtain ⟨⟨o, ho, hquick⟩, hend⟩ := hcode p (Nat.lt_succ_iff.mp hlt) (Nat.lt_succ_self p)
  obtain rfl := hw.comes_from hop hn ho (isLanding_of_isQuick hquick) hend
  rw [Option.some.inj (hop.symm.trans ho), hquick] at hq
  cases hq

theorem fresh_behind (hop : ops[ip]? = some op) (hq : op.isQuick = false) : Fresh ops (ip + 1) := by
  intro j hj hcode
  rcases hj.eq_or_lt with heq | hlt
  · exact heq
  obtain ⟨⟨o, ho, hquick⟩, -⟩ := hcode ip (Nat.lt_succ_iff.mp hlt) (Nat.lt_succ_self ip)
  rw [Option.some.inj (hop.symm.trans ho), hquick] at hq
  cases hq

theorem Fresh.ran {stack : List (Value F)} {f : CallFrame}
    (h : Fresh (env.ops f.chunkIdx) f.ip) : StraightRan env stack f := by
  intro j hj hcode
  obtain rfl := h j hj hcode
  exact ⟨_, .start⟩

/-- A frame that has come behind an instruction of another kind, whatever the status. -/
theorem StraightInv.of_fresh {vm : Vm F} {st : Status} {f : CallFrame} {rest : List CallFrame}
    (hf : vm.frames = f :: rest) (hfresh : Fresh (env.ops f.chunkIdx) f.ip)
    (hrest : ∀ g ∈ rest, Fresh (env.ops g.chunkIdx) g.ip) : StraightInv env ⟨vm, st⟩ := by
  intro f' rest' hf'
  cases hf.symm.trans hf'
  refine ⟨?_, hrest⟩
  split
  · exact hfresh.ran
  · exact hfresh

/-- The innermost frame has executed its straight-line code, whatever the status. -/
theorem StraightInv.ran {cfg : Config F} {f : CallFrame} {rest : List CallFrame}
    (h : StraightInv env cfg) (hf : cfg.vm.frames = f :: rest) :
    StraightRan env cfg.vm.stack f := by
  have hrun := (h f rest hf).1
  split at hrun
  · exact hrun
  · exact hrun.ran

theorem StraightInv.running {vm : Vm F} {f : CallFrame} {rest : List CallFrame}
    (h : StraightInv env ⟨vm, .running⟩) (hf : vm.frames = f :: rest) :
    StraightRan env vm.stack f ∧ ∀ g ∈ rest, Fresh (env.ops g.chunkIdx) g.ip :=
  h f rest hf

/-- A step executes one instruction more. -/
theorem StraightInv.exec {vm vm' : Vm F} {o : Outcome F} (h : StraightInv env ⟨vm, .running⟩)
    (hw : ∀ f rest, vm.frames = f :: rest → WellNested (env.ops f.chunkIdx))
    (hs : (step env).run vm = .ok (o, vm')) : StraightInv env ⟨vm', o.status⟩ := by
  -- a frame that ends leaves its callers as they are
  have hcallers {s : Vm F} {v : Value F} {f : CallFrame} {rest : List CallFrame}
      (hf : vm.frames = f :: rest) (hd : Delivered s v o vm') (hrest : s.frames = rest) :
      StraightInv env ⟨vm', o.status⟩ := by
    have hfresh := (h.running hf).2
    cases hd with
    | caller hne =>
      cases rest with
      | nil => exact absurd hrest hne
      | cons g rest =>
        exact .of_fresh hrest (hfresh g List.mem_cons_self) fun g hg =>
          hfresh g (List.mem_cons_of_mem _ hg)
    | host hnil =>
      intro f' rest' hf'
      cases hnil.symm.trans hf'
  cases step_stepped hs with
  | @plain f rest op _ hf hop hp hexec =>
    obtain ⟨hran, hfresh⟩ := h.running hf
    obtain ⟨-, -, hframes, -⟩ := execOp_ok hp hexec
    by_cases hq : op.isQuick = true
    · intro f' rest' hf'
      cases hframes.symm.trans hf'
      refine ⟨?_, hfresh⟩
      intro j hj hcode
      rcases hj.eq_or_lt with rfl | hlt
      · exact ⟨_, .start⟩
      obtain ⟨st, hst⟩ := hran j (Nat.lt_succ_iff.mp hlt) hcode.init
      have hquick := execOp_quick hq hexec
      exact ⟨st, hst.next hop hquick⟩
    · exact .of_fresh hframes (fresh_behind hop (Bool.eq_false_iff.mpr hq)) hfresh
  | @branch f rest op t b hf hop hb ip' hip =>
    have hnext : ip' ∈ op.next f.ip ∧ op.isQuick = false := by
      rcases hip with ⟨rfl, rfl⟩ | ⟨rfl, rfl⟩ <;> refine ⟨?_, rfl⟩ <;> cases b <;>
        simp [Op.next]
    exact .of_fresh rfl (fresh_next (hw f rest hf) hop hnext.2 hnext.1) (h.running hf).2
  | @jump f rest op t hf hop hj =>
    have hnext : t ∈ op.next f.ip ∧ op.isQuick = false := by
      rcases hj with rfl | rfl | rfl <;> exact ⟨List.mem_singleton_self _, rfl⟩
    exact .of_fresh rfl (fresh_next (hw f rest hf) hop hnext.2 hnext.1) (h.running hf).2
  | @mark f rest op hf hop hm =>
    have hq : op.isQuick = false := by
      rcases hm with rfl | ⟨t, rfl⟩ | rfl <;> rfl
    exact .of_fresh rfl (fresh_behind hop hq) (h.running hf).2
  | reset hf hop hlen hpos =>
    exact .of_fresh rfl (fresh_behind (streamIp_getElem? hpos) rfl) (h.running hf).2
  | @call f rest idx n hf hop hidx hn hlc =>
    have hzero : Fresh (env.ops idx) 0 := fun j hj _ => Nat.le_zero.mp hj
    refine .of_fresh rfl hzero fun g hg => ?_
    rcases List.mem_cons.mp hg with rfl | hg
    · exact fresh_behind hop rfl
    · exact (h.running hf).2 g hg
  | «return» hf hop hv hd => exact hcallers hf hd rfl
  | endOfChunk hf hop hd => exact hcallers hf hd rfl
  | yield hf hop hv => exact .of_fresh rfl (fresh_behind hop rfl) (h.running hf).2

section Accepted

variable (hv : verify env.module = .ok ())
include hv

/-- The chunk of a frame that meets the condition is well nested. -/
theorem HeightOk.wellNested {f : CallFrame} (hok : HeightOk env f) :
    WellNested (env.ops f.chunkIdx) := by
  unfold Env.ops
  cases hc : env.chunk? f.chunkIdx with
  | none => exact .nil
  | some c =>
    have hm := hok.matched
    rw [ops_of_chunk? hc] at hm
    exact (checkNesting_region (accepted_of_chunk? hv hc).nesting).matched hm

/-- **The innermost frame has executed the straight-line code behind which it stands.** -/
theorem straight_run {γ : Type} {M : Monitor F γ} {ok : Vm F → Prop}
    (hok : ∀ vm, ok vm → HeightStep env vm) {c : ℕ} {cfg : Config F} {gs : List γ}
    (h : M.Reaches env ok c cfg gs) : StraightInv env cfg := by
  induction h with
  | start h =>
    obtain ⟨vm, shared, args, hidle, hcall, -⟩ := h
    obtain ⟨-, -, -, -, hframes, -, -⟩ := callFunction_ok hidle hcall
    exact .of_fresh hframes (fun j hj _ => Nat.le_zero.mp hj) (List.forall_mem_nil _)
  | exec _ hstep hs ih =>
    exact ih.exec (fun f rest hf => (hok _ hstep f rest hf).wellNested hv) hs
  | @resume vm vm' st gs hr shared input hst hs ih =>
    intro f rest hf
    rw [(resume_ok hs).frames] at hf
    obtain ⟨hfresh, hrest⟩ := ih f rest hf
    have hne : st ≠ .running := by rcases hst with rfl | rfl <;> rintro ⟨⟩
    rw [if_neg hne] at hfresh
    exact ⟨hfresh.ran, hrest⟩

end Accepted

end Keleusma
