import Recompiler.Proofs.FpTransfers
import Recompiler.Proofs.WordPairs
import Recompiler.Proofs.Workings

/-!
Inline arithmetic leaves the guest with the result of the instruction. Each translator is run
operand by operand; that its words are those of the result is the arithmetic of pairs of words.
-/

namespace Recompiler

open Ir Emit Interp

/-- The code leads to the state `g` of the guest, with every operand used. -/
abbrev Leaves (c₀ : HostCache) (m₀ : Machine Cpu) (g : Cpu) (_ : Unit) (e : Emitter)
    (m : Machine Cpu) : Prop := Working c₀ m₀ [] e m g

variable {W : Finished} {Q : Cpu → Prop} {c₀ : HostCache} {m₀ m : Machine Cpu} {env : Operands}
  {e : Emitter} {g : Cpu} {s : Site} {i : Recompiler.Instr} {gr : GuestReg}

theorem Emit.Site.fits (hw : s.widths.Holds g) (h : s.isWord gr = true) : Fits 32 (g.guest gr) := by
  unfold Emit.Site.isWord at h
  unfold Cpu.guest
  split at h
  · rename_i hr
    rw [dif_pos hr]
    exact (hw.reg _).mono (of_decide_eq_true h)
  · rename_i hr
    rw [dif_neg hr]
    split at h
    · rename_i hhi
      rw [if_pos hhi]
      exact hw.hi.mono (of_decide_eq_true h)
    · rename_i hhi
      rw [if_neg hhi]
      exact hw.lo.mono (of_decide_eq_true h)

theorem Emit.Site.sextWord_guest (hw : s.widths.Holds g) (h : s.isWord gr = true) :
    sextWord (lowWord (g.guest gr)) = g.guest gr :=
  sextWord_lowWord (Site.fits hw h) (Int.le_refl 32)

instance (gr : GuestReg) (high low : HostReg) : Emit.Grows (writeBoth gr high low) := by
  unfold Emit.writeBoth
  infer_instance

theorem back_lt {sa : UInt32} (h0 : 0 < sa.toNat) (hsa : sa.toNat < 32) :
    (32 - sa).toNat < 32 := by
  rw [UInt32.toNat_sub_of_le _ _ (UInt32.le_iff_toNat_le.mpr (Nat.le_of_lt hsa))]
  exact Nat.sub_lt (by decide) h0

theorem highWord_simm (i : Recompiler.Instr) : highWord i.simm = simmHigh i := by
  rw [← sextWord_lowWord (Instr.fits_simm i) (by decide), sextWord_eq, highWord_joinWords]
  rfl

theorem uimm_eq (i : Recompiler.Instr) : i.uimm = (uimm i).toUInt64 := by
  rw [← UInt64.toNat_inj]
  change i.imm.toNat = i.imm.toNat % 2 ^ 32
  have := i.imm.toNat_lt
  omega

theorem uimm_word (i : Recompiler.Instr) : uimm i = i.imm.toUInt32 := by
  rw [← UInt32.toNat_inj]
  change i.imm.toNat % 2 ^ 32 = i.imm.toNat
  have := i.imm.toNat_lt
  omega

theorem highWord_uimm (i : Recompiler.Instr) : highWord i.uimm = 0 := by
  rw [uimm_eq, toUInt64_eq_joinWords, highWord_joinWords]

instance (signed : Bool) (xh xl yh yl t : HostReg) :
    Emit.Grows (compareBoth signed xh xl yh yl t) := by
  unfold Emit.compareBoth
  infer_instance

namespace Working

protected theorem writeBoth {high low : HostReg} {kh kl : Content} {vh vl : UInt32}
    (h : Working c₀ m₀ env e m g) (n k : Nat) (hh : env[n]? = some (high, kh, vh))
    (hl : env[k]? = some (low, kl, vl)) (hkl : kl ≠ .high gr) :
    Runs W Q (writeBoth gr high low) e m (Leaves c₀ m₀ (g.setGuest gr (joinWords vh vl))) := by
  unfold Emit.writeBoth
  refine .bind (h.outHigh gr) fun d e m hd => ?_
  refine .bind (hd.writeHigh rfl (perform_mov (hd.valueAt n hh))) fun _ e m h => ?_
  refine .bind (h.outLow gr) fun d e m hd => ?_
  exact hd.writeLow rfl (perform_mov (hd.values _ _ _
    (List.mem_filter.mpr ⟨List.mem_of_getElem? hl, decide_eq_true hkl⟩)))

protected theorem move {dst src : GuestReg} (h : Working c₀ m₀ [] e m g) (hw : s.widths.Holds g) :
    Runs W Q (move s dst src) e m (Leaves c₀ m₀ (g.setGuest dst (g.guest src))) := by
  unfold Emit.move
  refine .ite (fun hword => ?_) fun _ => ?_
  · refine .bind (h.inLow src) fun x e m h => ?_
    refine .bind (h.outSigned dst) fun d e m hd => ?_
    rw [← Site.sextWord_guest hw hword]
    exact hd.writeSigned rfl (perform_mov (hd.valueAt 0 rfl))
  · refine .bind (h.inHigh src) fun high e m h => ?_
    refine .bind (h.inLow src) fun low e m h => ?_
    rw [← joinWords_high_low (g.guest src)]
    exact h.writeBoth 1 0 rfl rfl nofun

theorem evalConst_shiftConst (op : ShiftOp) (v sa : UInt32) :
    sextWord (Machine.evalConst (shiftConst op) v sa) = shift32 op v sa := by
  cases op <;> rfl

theorem evalBin_shiftBin (op : ShiftOp) (v sa : UInt32) :
    sextWord (Machine.evalBin (shiftBin op) v sa) = shift32 op v (sa &&& 31) := by
  cases op <;> rfl

protected theorem shiftWord (h : Working c₀ m₀ [] e m g) (op : ShiftOp) :
    Runs W Q (shiftWord op i) e m
      (Leaves c₀ m₀ (g.setGuest (rd i) (shift32 op (lowWord (g.guest (rt i))) i.sa))) := by
  unfold Emit.shiftWord
  refine .bind (h.inLow _) fun x e m h => ?_
  refine .bind (h.outSigned _) fun d e m hd => ?_
  rw [← evalConst_shiftConst]
  exact hd.writeSigned rfl (perform_const _ (hd.valueAt 0 rfl) fun _ => i.sa_lt)

protected theorem shiftWordVar (h : Working c₀ m₀ [] e m g) (op : ShiftOp) :
    Runs W Q (shiftWordVar op i) e m (Leaves c₀ m₀ (g.setGuest (rd i)
      (shift32 op (lowWord (g.guest (rt i))) (lowWord (g.guest (rs i)) &&& 31)))) := by
  unfold Emit.shiftWordVar
  refine .bind (h.inLow _) fun x e m h => ?_
  refine .bind (h.inLow _) fun sa e m h => ?_
  refine .bind (h.outSigned _) fun d e m hd => ?_
  rw [← evalBin_shiftBin]
  exact hd.writeSigned rfl (perform_bin _
    (hd.valueAt 1 rfl)
    (hd.valueAt 0 rfl))

protected theorem shiftDouble32 (h : Working c₀ m₀ [] e m g) (op : ShiftOp) :
    Runs W Q (shiftDouble32 op i) e m (Leaves c₀ m₀ (g.setGuest (rd i)
      (shift64 op (g.guest (rt i)) (i.sa.toUInt64 + 32)))) := by
  have hsa := i.sa_lt
  have hs : (i.sa.toUInt64 + 32).toNat = i.sa.toNat + 32 := by
    change (i.sa.toNat + 32) % 2 ^ 64 = _
    exact Nat.mod_eq_of_lt (by omega)
  unfold Emit.shiftDouble32 shift64
  cases op with
  | left =>
    refine .bind (h.inLow _) fun x e m h => ?_
    refine .bind (h.outHigh _) fun d e m hd => ?_
    refine .bind (hd.writeHigh rfl (perform_const _ (hd.valueAt 0 rfl)
      fun _ => hsa)) fun _ e m h => ?_
    refine .bind (h.outLow _) fun d e m hd => ?_
    rw [shiftLeft_far _ hs hsa]
    exact hd.writeLow rfl rfl
  | right =>
    refine .bind (h.inHigh _) fun x e m h => ?_
    refine .bind (h.outUnsigned _) fun d e m hd => ?_
    rw [shiftRight_far _ hs hsa]
    exact hd.writeExt rfl (perform_const _ (hd.valueAt 0 rfl) fun _ => hsa)
  | arith =>
    refine .bind (h.inHigh _) fun x e m h => ?_
    refine .bind (h.outSigned _) fun d e m hd => ?_
    rw [sar64_far _ hs hsa]
    exact hd.writeSigned rfl (perform_const _ (hd.valueAt 0 rfl) fun _ => hsa)

/-- The bits that leave the low word enter the high one. -/
theorem carryLeft {x : GuestReg} {sa : UInt32} (h : Working c₀ m₀ [] e m g) (h0 : 0 < sa.toNat)
    (hsa : sa.toNat < 32) : Runs W Q (do
        let high ← inHigh x
        let low ← inLow x
        let h ← temp
        let l ← temp
        let carry ← temp
        const .sll high sa h
        const .srl low (32 - sa) carry
        bin .or h carry h
        const .sll low sa l
        writeBoth gr h l) e m
      (Leaves c₀ m₀ (g.setGuest gr (g.guest x <<< sa.toUInt64))) := by
  rw [shiftLeft_pair _ (UInt32.toNat_toUInt64 sa) h0 hsa]
  refine .bind (h.inHigh _) fun high e m h => ?_
  refine .bind (h.inLow _) fun low e m h => ?_
  refine .bind h.temp fun th e m h => ?_
  refine .bind h.temp fun tl e m h => ?_
  refine .bind h.temp fun carry e m h => ?_
  refine .bind (h.setTemp 2 rfl rfl (perform_const _ (h.valueAt 4 rfl) fun _ => hsa))
    fun _ e m h => ?_
  refine .bind (h.setTemp 0 rfl rfl (perform_const _ (h.valueAt 3 rfl) fun _ => back_lt h0 hsa))
    fun _ e m h => ?_
  refine .bind (h.setTemp 2 rfl rfl (perform_bin _ (h.valueAt 2 rfl) (h.valueAt 0 rfl)))
    fun _ e m h => ?_
  refine .bind (h.setTemp 1 rfl rfl (perform_const _ (h.valueAt 3 rfl) fun _ => hsa))
    fun _ e m h => ?_
  exact h.writeBoth 2 1 rfl rfl nofun

/-- The low word gets bits from the high one. -/
theorem carryRight {x : GuestReg} {sa : UInt32} (h : Working c₀ m₀ [] e m g) (op : ShiftOp)
    (h0 : 0 < sa.toNat) (hsa : sa.toNat < 32) : Runs W Q (do
        let high ← inHigh x
        let low ← inLow x
        let h ← temp
        let l ← temp
        let carry ← temp
        const .srl low sa l
        const .sll high (32 - sa) carry
        bin .or l carry l
        const (shiftConst op) high sa h
        writeBoth gr h l) e m
      (Leaves c₀ m₀ (g.setGuest gr (joinWords
        (Machine.evalConst (shiftConst op) (highWord (g.guest x)) sa)
        (lowWord (g.guest x) >>> sa ||| highWord (g.guest x) <<< (32 - sa))))) := by
  refine .bind (h.inHigh _) fun high e m h => ?_
  refine .bind (h.inLow _) fun low e m h => ?_
  refine .bind h.temp fun th e m h => ?_
  refine .bind h.temp fun tl e m h => ?_
  refine .bind h.temp fun carry e m h => ?_
  refine .bind (h.setTemp 1 rfl rfl (perform_const _ (h.valueAt 3 rfl) fun _ => hsa))
    fun _ e m h => ?_
  refine .bind (h.setTemp 0 rfl rfl (perform_const _ (h.valueAt 4 rfl) fun _ => back_lt h0 hsa))
    fun _ e m h => ?_
  refine .bind (h.setTemp 1 rfl rfl (perform_bin _ (h.valueAt 1 rfl) (h.valueAt 0 rfl)))
    fun _ e m h => ?_
  refine .bind (h.setTemp 2 rfl rfl (perform_const _ (h.valueAt 4 rfl) fun _ => hsa))
    fun _ e m h => ?_
  exact h.writeBoth 2 1 rfl rfl nofun

protected theorem shiftDouble (h : Working c₀ m₀ [] e m g) (hw : s.widths.Holds g) (op : ShiftOp) :
    Runs W Q (shiftDouble s op i) e m (Leaves c₀ m₀ (g.setGuest (rd i)
      (shift64 op (g.guest (rt i)) i.sa.toUInt64))) := by
  have hsa := i.sa_lt
  have hs : i.sa.toUInt64.toNat = i.sa.toNat := UInt32.toNat_toUInt64 _
  unfold Emit.shiftDouble
  refine .ite (fun h0 => ?_) fun h0 => ?_
  · rw [h0, show shift64 op (g.guest (rt i)) (UInt32.toUInt64 0) = g.guest (rt i) from
      shift64_zero op _]
    exact h.move hw
  have hpos : 0 < i.sa.toNat := Nat.pos_of_ne_zero fun hz => h0 (UInt32.toNat_inj.mp hz)
  unfold shift64
  cases op with
  | left => exact h.carryLeft hpos hsa
  | right =>
    rw [shiftRight_pair _ hs hpos hsa]
    exact h.carryRight .right hpos hsa
  | arith =>
    rw [sar64_pair _ hs hpos hsa]
    exact h.carryRight .arith hpos hsa

theorem perform_mul (signed : Bool) {x y lo hi : HostReg} {u v : UInt32} (hx : m.get x = u)
    (hy : m.get y = v) : m.perform (.mul signed x y lo hi) =
      ((m.set lo (lowWord (Machine.product signed u v))).set hi
        (highWord (Machine.product signed u v))).next := by
  subst hx hy
  rfl

protected theorem multiply (h : Working c₀ m₀ [] e m g) (signed : Bool) :
    Runs W Q (multiply signed i) e m (Leaves c₀ m₀ { g with
      hi := sextWord (highWord (Machine.product signed (lowWord (g.guest (rs i)))
        (lowWord (g.guest (rt i)))))
      lo := sextWord (lowWord (Machine.product signed (lowWord (g.guest (rs i)))
        (lowWord (g.guest (rt i))))) }) := by
  unfold Emit.multiply
  refine .bind (h.inLow _) fun x e m h => ?_
  refine .bind (h.inLow _) fun y e m h => ?_
  refine .bind (h.outSigned _) fun lo e m hlo => ?_
  refine .bind (hlo.outExt .hi .sign fun content hc => ?_) fun hi e m ⟨hhi, howns⟩ => ?_
  · cases hc
    exact ⟨nofun, nofun, nofun⟩
  refine .emit rfl ?_
  rw [perform_mul signed (hhi.valueAt 1 rfl) (hhi.valueAt 0 rfl)]
  generalize Machine.product signed (lowWord (g.guest (rs i))) (lowWord (g.guest (rt i))) = p
  have hw := (hhi.working.wroteResult howns nofun (lowWord p)).wroteResult hhi.owns nofun
    (highWord p)
  rw [storeWords_ext, storeWords_ext, storeWords_ext, storeWords_ext] at hw
  simp only [sextWord_eq]
  exact hw.congr rfl rfl (fun _ => rfl) rfl

protected theorem addWord (h : Working c₀ m₀ [] e m g) (op : BinOp) :
    Runs W Q (addWord op i) e m (Leaves c₀ m₀ (g.setGuest (rd i) (sextWord
      (Machine.evalBin op (lowWord (g.guest (rs i))) (lowWord (g.guest (rt i))))))) := by
  unfold Emit.addWord
  refine .bind (h.inLow _) fun x e m h => ?_
  refine .bind (h.inLow _) fun y e m h => ?_
  refine .bind (h.outSigned _) fun d e m hd => ?_
  exact hd.writeSigned rfl (perform_bin _ (hd.valueAt 1 rfl) (hd.valueAt 0 rfl))

protected theorem logic {op : BinOp} {f : UInt64 → UInt64 → UInt64} (h : Working c₀ m₀ [] e m g)
    (hw : s.widths.Holds g) (hop : Bitwise op f) : Runs W Q (logic s op i) e m
      (Leaves c₀ m₀ (g.setGuest (rd i) (f (g.guest (rs i)) (g.guest (rt i))))) := by
  unfold Emit.logic
  refine .ite (fun hword => ?_) fun _ => ?_
  · obtain ⟨hs, ht⟩ := Bool.and_eq_true_iff.mp hword
    refine .bind (h.inLow _) fun x e m h => ?_
    refine .bind (h.inLow _) fun y e m h => ?_
    refine .bind (h.outSigned _) fun d e m hd => ?_
    rw [← sextWord_lowWord (hop.fits _ _ (Site.fits hw hs) (Site.fits hw ht)) (Int.le_refl 32),
      hop.low]
    exact hd.writeSigned rfl (perform_bin _ (hd.valueAt 1 rfl) (hd.valueAt 0 rfl))
  · refine .bind (h.inHigh _) fun xh e m h => ?_
    refine .bind (h.inHigh _) fun yh e m h => ?_
    refine .bind (h.inLow _) fun xl e m h => ?_
    refine .bind (h.inLow _) fun yl e m h => ?_
    refine .bind (h.outHigh _) fun d e m hd => ?_
    refine .bind (hd.writeHigh rfl (perform_bin _ (hd.valueAt 3 rfl) (hd.valueAt 2 rfl)))
      fun _ e m h => ?_
    refine .bind (h.outLow _) fun d e m hd => ?_
    rw [eq_joinWords (hop.high _ _) (hop.low _ _)]
    exact hd.writeLow rfl (perform_bin _
      (hd.values _ _ _ (List.mem_filter.mpr ⟨List.mem_of_getElem? (i := 1) rfl, rfl⟩))
      (hd.values _ _ _ (List.mem_filter.mpr ⟨List.mem_of_getElem? (i := 0) rfl, rfl⟩)))

/-- The carry between the words is that of the low ones. -/
protected theorem addDouble (h : Working c₀ m₀ [] e m g) (sub : Bool) :
    Runs W Q (addDouble sub i) e m (Leaves c₀ m₀ (g.setGuest (rd i)
      (if sub then g.guest (rs i) - g.guest (rt i) else g.guest (rs i) + g.guest (rt i)))) := by
  unfold Emit.addDouble
  refine .bind (h.inHigh _) fun xh e m h => ?_
  refine .bind (h.inLow _) fun xl e m h => ?_
  refine .bind (h.inHigh _) fun yh e m h => ?_
  refine .bind (h.inLow _) fun yl e m h => ?_
  refine .bind h.temp fun th e m h => ?_
  refine .bind h.temp fun tl e m h => ?_
  refine .bind h.temp fun carry e m h => ?_
  cases sub with
  | true =>
    refine .bind (h.setTemp 1 rfl rfl (perform_bin _ (h.valueAt 5 rfl) (h.valueAt 3 rfl)))
      fun _ e m h => ?_
    refine .bind (h.setTemp 0 rfl rfl (perform_bin _ (h.valueAt 5 rfl) (h.valueAt 3 rfl)))
      fun _ e m h => ?_
    refine .bind (h.setTemp 2 rfl rfl (perform_bin _ (h.valueAt 6 rfl) (h.valueAt 4 rfl)))
      fun _ e m h => ?_
    refine .bind (h.setTemp 2 rfl rfl (perform_bin _ (h.valueAt 2 rfl) (h.valueAt 0 rfl)))
      fun _ e m h => ?_
    rw [if_pos rfl, eq_joinWords (highWord_sub _ _) (lowWord_sub _ _)]
    exact h.writeBoth 2 1 rfl rfl nofun
  | false =>
    refine .bind (h.setTemp 1 rfl rfl (perform_bin _ (h.valueAt 5 rfl) (h.valueAt 3 rfl)))
      fun _ e m h => ?_
    refine .bind (h.setTemp 0 rfl rfl (perform_bin _ (h.valueAt 1 rfl) (h.valueAt 5 rfl)))
      fun _ e m h => ?_
    refine .bind (h.setTemp 2 rfl rfl (perform_bin _ (h.valueAt 6 rfl) (h.valueAt 4 rfl)))
      fun _ e m h => ?_
    refine .bind (h.setTemp 2 rfl rfl (perform_bin _ (h.valueAt 2 rfl) (h.valueAt 0 rfl)))
      fun _ e m h => ?_
    rw [if_neg nofun, eq_joinWords (highWord_add _ _) (lowWord_add _ _)]
    exact h.writeBoth 2 1 rfl rfl nofun

protected theorem addImm (h : Working c₀ m₀ [] e m g) : Runs W Q (addImm i) e m
    (Leaves c₀ m₀ (g.setGuest (rt i) (sextWord (lowWord (g.guest (rs i)) + simm i)))) := by
  unfold Emit.addImm
  refine .bind (h.inLow _) fun x e m h => ?_
  refine .bind (h.outSigned _) fun d e m hd => ?_
  exact hd.writeSigned rfl (perform_const .add (hd.valueAt 0 rfl) (by simp))

protected theorem addImmDouble (h : Working c₀ m₀ [] e m g) : Runs W Q (addImmDouble i) e m
    (Leaves c₀ m₀ (g.setGuest (rt i) (g.guest (rs i) + i.simm))) := by
  unfold Emit.addImmDouble
  refine .bind (h.inHigh _) fun xh e m h => ?_
  refine .bind (h.inLow _) fun xl e m h => ?_
  refine .bind h.temp fun th e m h => ?_
  refine .bind h.temp fun tl e m h => ?_
  refine .bind h.temp fun carry e m h => ?_
  refine .bind (h.setTemp 1 rfl rfl (perform_const .add (h.valueAt 3 rfl) (by simp)))
    fun _ e m h => ?_
  refine .bind (h.setTemp 0 rfl rfl (perform_bin _ (h.valueAt 1 rfl) (h.valueAt 3 rfl)))
    fun _ e m h => ?_
  refine .bind (h.setTemp 2 rfl rfl (perform_const .add (h.valueAt 4 rfl) (by simp)))
    fun _ e m h => ?_
  refine .bind (h.setTemp 2 rfl rfl (perform_bin _ (h.valueAt 2 rfl) (h.valueAt 0 rfl)))
    fun _ e m h => ?_
  rw [eq_joinWords (highWord_add _ _) (lowWord_add _ _), highWord_simm]
  exact h.writeBoth 2 1 rfl rfl nofun

protected theorem andImm (h : Working c₀ m₀ [] e m g) : Runs W Q (andImm i) e m
    (Leaves c₀ m₀ (g.setGuest (rt i) (g.guest (rs i) &&& i.uimm))) := by
  unfold Emit.andImm
  refine .bind (h.inLow _) fun x e m h => ?_
  refine .bind (h.outUnsigned _) fun d e m hd => ?_
  rw [eq_joinWords (Bitwise.and.high _ _) (Bitwise.and.low _ _), highWord_uimm]
  refine (hd.writeExt rfl (perform_const .and (hd.valueAt 0 rfl) (by simp))).imp fun _ e m h => ?_
  rw [show Machine.evalBin .and (highWord (g.guest (rs i))) 0 = 0 from UInt32.and_zero]
  exact h

protected theorem orImm {op : ConstOp} {bop : BinOp} {f : UInt64 → UInt64 → UInt64}
    (h : Working c₀ m₀ [] e m g) (hw : s.widths.Holds g) (hop : Bitwise bop f)
    (hconst : ∀ x v, Machine.evalConst op x v = Machine.evalBin bop x v)
    (hshift : ¬ (op = .sll ∨ op = .srl ∨ op = .sra)) (hzero : ∀ x, Machine.evalBin bop x 0 = x) :
    Runs W Q (orImm s op i) e m (Leaves c₀ m₀ (g.setGuest (rt i) (f (g.guest (rs i)) i.uimm))) := by
  unfold Emit.orImm
  refine .ite (fun hs => ?_) fun _ => ?_
  · refine .bind (h.inLow _) fun x e m h => ?_
    refine .bind (h.outSigned _) fun d e m hd => ?_
    have hfits := hop.fits _ _ (Site.fits hw hs) ((Widths.fits_uimm i).mono (by decide))
    rw [← sextWord_lowWord hfits (Int.le_refl 32), hop.low, ← hconst]
    exact hd.writeSigned rfl (perform_const op (hd.valueAt 0 rfl) fun hc => absurd hc hshift)
  · refine .bind (h.inHigh _) fun xh e m h => ?_
    refine .bind (h.inLow _) fun xl e m h => ?_
    refine .bind (h.outHigh _) fun d e m hd => ?_
    refine .bind (hd.writeHigh rfl (perform_mov (hd.valueAt 1 rfl))) fun _ e m h => ?_
    refine .bind (h.outLow _) fun d e m hd => ?_
    rw [eq_joinWords (hop.high _ _) (hop.low _ _), highWord_uimm, hzero, ← hconst]
    exact hd.writeLow rfl (perform_const op
      (hd.values _ _ _ (List.mem_filter.mpr ⟨List.mem_of_getElem? (i := 0) rfl, rfl⟩))
      fun hc => absurd hc hshift)

protected theorem loadUpper (h : Working c₀ m₀ [] e m g) : Runs W Q (loadUpper i) e m
    (Leaves c₀ m₀ (g.setGuest (rt i) (i.simm <<< 16))) := by
  unfold Emit.loadUpper
  refine .bind (h.outSigned _) fun d e m hd => ?_
  rw [Instr.simm_shiftLeft, ← uimm_word]
  exact hd.writeConst _

end Working

def less (signed : Bool) (x y : UInt64) : Bool := if signed then slt64 x y else x < y

def lessWord (signed : Bool) (x y : UInt32) : Bool := if signed then slt32 x y else x < y

theorem evalBin_lessOp (signed : Bool) (x y : UInt32) :
    Machine.evalBin (lessOp signed) x y = ofBool32 (lessWord signed x y) := by
  cases signed <;> rfl

theorem evalConst_lessConst (signed : Bool) (x y : UInt32) :
    Machine.evalConst (lessConst signed) x y = ofBool32 (lessWord signed x y) := by
  cases signed <;> rfl

theorem less_sextWord (signed : Bool) (x y : UInt32) :
    less signed (sextWord x) (sextWord y) = lessWord signed x y := by
  cases signed with
  | true => exact slt64_sextWord x y
  | false => exact decide_eq_decide.mpr (sextWord_lt x y)

theorem less_words (signed : Bool) (x y : UInt64) : less signed x y =
    if highWord x != highWord y then lessWord signed (highWord x) (highWord y)
    else decide (lowWord x < lowWord y) := by
  have hirrefl (v : UInt32) : lessWord signed v v = false := by
    cases signed <;> simp [lessWord, slt32]
  have hwords : less signed x y = true ↔ lessWord signed (highWord x) (highWord y) = true ∨
      highWord x = highWord y ∧ lowWord x < lowWord y := by
    cases signed with
    | true => exact slt64_iff_words x y
    | false => exact decide_eq_true_iff.trans (by simpa [lessWord] using lt_iff_words x y)
  rw [Bool.eq_iff_iff, hwords]
  by_cases he : highWord x = highWord y
  · simp [he, hirrefl]
  · simp [he]

theorem ofBool64_eq (b : Bool) : ofBool64 b = (ofBool32 b).toUInt64 := by
  cases b <;> rfl

namespace Working

/-- The outcome is put into a temporary. -/
protected theorem compareBoth {t xh xl yh yl : HostReg} {u : UInt32} {v w : UInt64}
    (h : Working c₀ m₀ env e m g) (n : Nat) (hn : env[n]? = some (t, .temp, u)) (signed : Bool)
    (hxh : m.get xh = highWord v) (hxl : m.get xl = lowWord v) (hyh : m.get yh = highWord w)
    (hyl : m.get yl = lowWord w) (hne : xh ≠ t ∧ xl ≠ t ∧ yh ≠ t ∧ yl ≠ t) :
    Runs W Q (compareBoth signed xh xl yh yl t) e m fun _ e' m' =>
      Working c₀ m₀ (env.set n (t, .temp, ofBool32 (less signed v w))) e' m' g := by
  unfold Emit.compareBoth
  refine .bind h.freshLabel fun done e m ⟨h', hm⟩ => ?_
  subst hm
  obtain ⟨hxht, hxlt, hyht, hylt⟩ := hne
  have hkeep (n : Machine Cpu) {x : HostReg} (k : UInt32) (hx : x ≠ t) :
      (n.set t k).get x = n.get x :=
    n.get_set_of_ne k hx.symm
  have hhigh : m.perform (.bin (lessOp signed) xh yh t) =
      (m.set t (ofBool32 (lessWord signed (highWord v) (highWord w)))).next := by
    rw [← evalBin_lessOp]
    exact perform_bin _ hxh hyh
  have hbranch : Ir.Instr.Decides (.branch .ne xh yh done)
      (m.set t (ofBool32 (lessWord signed (highWord v) (highWord w)))).next done
      (highWord v != highWord w) := fun f => by
    simp only [Builder.clip, Instr.mapTarget, Machine.exec, Machine.get_next, hkeep _ _ hxht,
      hkeep _ _ hyht, hxh, hyh]
    rfl
  rw [less_words, apply_ite ofBool32]
  exact h'.decide n hn rfl hhigh hbranch rfl
    (perform_bin .sltu ((hkeep _ _ hxlt).trans hxl) ((hkeep _ _ hylt).trans hyl))

/-- The comparison with an immediate. -/
theorem compareImm {t xh xl : HostReg} {u : UInt32} {v w : UInt64} (h : Working c₀ m₀ env e m g)
    (n : Nat) (hn : env[n]? = some (t, .temp, u)) (signed : Bool) {done : String}
    (hxh : m.get xh = highWord v) (hxl : m.get xl = lowWord v) (hne : xh ≠ t ∧ xl ≠ t) :
    Runs W Q (do
      const (lessConst signed) xh (highWord w) t
      emit (.branchConst .ne xh (highWord w) done)
      const .sltu xl (lowWord w) t
      putLabel done) e m fun _ e' m' =>
        Working c₀ m₀ (env.set n (t, .temp, ofBool32 (less signed v w))) e' m' g := by
  obtain ⟨hxht, hxlt⟩ := hne
  have hkeep (n : Machine Cpu) {x : HostReg} (k : UInt32) (hx : x ≠ t) :
      (n.set t k).get x = n.get x :=
    n.get_set_of_ne k hx.symm
  have hhigh : m.perform (.const (lessConst signed) xh (highWord w) t) =
      (m.set t (ofBool32 (lessWord signed (highWord v) (highWord w)))).next := by
    rw [← evalConst_lessConst]
    exact perform_const _ hxh (by cases signed <;> simp [lessConst])
  have hbranch : Ir.Instr.Decides (.branchConst .ne xh (highWord w) done)
      (m.set t (ofBool32 (lessWord signed (highWord v) (highWord w)))).next done
      (highWord v != highWord w) := fun f => by
    simp only [Builder.clip, Instr.mapTarget, Machine.exec, Machine.get_next, hkeep _ _ hxht, hxh]
    rfl
  rw [less_words, apply_ite ofBool32]
  exact h.decide n hn rfl hhigh hbranch rfl
    (perform_const (m := (m.set t _).next.next) .sltu ((hkeep _ _ hxlt).trans hxl) (by simp))

protected theorem setLess (h : Working c₀ m₀ [] e m g) (hw : s.widths.Holds g) (signed : Bool) :
    Runs W Q (setLess s signed i) e m (Leaves c₀ m₀ (g.setGuest (rd i)
      (ofBool64 (less signed (g.guest (rs i)) (g.guest (rt i)))))) := by
  unfold Emit.setLess
  rw [ofBool64_eq]
  refine .ite (fun hword => ?_) fun _ => ?_
  · obtain ⟨hs, ht⟩ := Bool.and_eq_true_iff.mp hword
    refine .bind (h.inLow _) fun x e m h => ?_
    refine .bind (h.inLow _) fun y e m h => ?_
    refine .bind (h.outUnsigned _) fun d e m hd => ?_
    rw [← Site.sextWord_guest hw hs, ← Site.sextWord_guest hw ht, less_sextWord, ← evalBin_lessOp]
    exact hd.writeUnsigned rfl (perform_bin _ (hd.valueAt 1 rfl) (hd.valueAt 0 rfl))
  · refine .bind (h.inHigh _) fun xh e m h => ?_
    refine .bind (h.inLow _) fun xl e m h => ?_
    refine .bind (h.inHigh _) fun yh e m h => ?_
    refine .bind (h.inLow _) fun yl e m h => ?_
    refine .bind h.temp fun t e m h => ?_
    refine .bind (h.compareBoth 0 rfl signed (h.valueAt 4 rfl) (h.valueAt 3 rfl) (h.valueAt 2 rfl)
      (h.valueAt 1 rfl) ⟨h.ne_temp 4 0 rfl nofun rfl, h.ne_temp 3 0 rfl nofun rfl,
        h.ne_temp 2 0 rfl nofun rfl, h.ne_temp 1 0 rfl nofun rfl⟩) fun _ e m h => ?_
    refine .bind (h.outUnsigned _) fun d e m hd => ?_
    exact hd.writeUnsigned rfl (perform_mov (hd.valueAt 0 rfl))

protected theorem setLessImm (h : Working c₀ m₀ [] e m g) (hw : s.widths.Holds g) (signed : Bool) :
    Runs W Q (setLessImm s signed i) e m (Leaves c₀ m₀ (g.setGuest (rt i)
      (ofBool64 (less signed (g.guest (rs i)) i.simm)))) := by
  unfold Emit.setLessImm
  rw [ofBool64_eq]
  refine .ite (fun hs => ?_) fun _ => ?_
  · refine .bind (h.inLow _) fun x e m h => ?_
    refine .bind (h.outUnsigned _) fun d e m hd => ?_
    rw [← Site.sextWord_guest hw hs, ← sextWord_lowWord (Instr.fits_simm i) (by decide),
      less_sextWord, ← evalConst_lessConst]
    exact hd.writeUnsigned rfl (perform_const _ (hd.valueAt 0 rfl)
      (by cases signed <;> simp [lessConst]))
  · refine .bind (h.inHigh _) fun xh e m h => ?_
    refine .bind (h.inLow _) fun xl e m h => ?_
    refine .bind h.temp fun t e m h => ?_
    refine .bind h.freshLabel fun done e _ ⟨h, _⟩ => ?_
    suffices hs : Runs W Q ((do
        const (lessConst signed) xh (simmHigh i) t
        emit (.branchConst .ne xh (simmHigh i) done)
        const .sltu xl (simm i) t
        putLabel done) >>= fun _ => (do
        let d ← outUnsigned (rt i)
        mov t d)) e _ _ by
      simpa only [bind_assoc] using hs
    rw [← highWord_simm]
    refine .bind (h.compareImm 0 rfl signed (h.valueAt 2 rfl) (h.valueAt 1 rfl)
      ⟨h.ne_temp 2 0 rfl nofun rfl, h.ne_temp 1 0 rfl nofun rfl⟩) fun _ e m h => ?_
    refine .bind (h.outUnsigned _) fun d e m hd => ?_
    exact hd.writeUnsigned rfl (perform_mov (hd.valueAt 0 rfl))

end Working

end Recompiler
