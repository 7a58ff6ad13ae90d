import Recompiler.Proofs.Context
import Recompiler.Proofs.Frames

/-!
The save area, where a program keeps host registers while it is being served. It is the program's
own: the CPU neither reads nor writes it.
-/

namespace Recompiler

open Ir Emit

namespace Cpu

def saving (c : Cpu) (s : Vector UInt32 9) : Cpu := { c with frame := { c.frame with save := s } }

def saved (c : Cpu) : Vector UInt32 9 := c.frame.save

@[simp] theorem saved_saving (c : Cpu) (s : Vector UInt32 9) : (c.saving s).saved = s := rfl

@[simp] theorem saving_saving (c : Cpu) (s s' : Vector UInt32 9) :
    (c.saving s).saving s' = c.saving s' := rfl

@[simp] theorem saving_saved (c : Cpu) : c.saving c.saved = c := rfl

@[simp] theorem leave_saving (c : Cpu) (s : Vector UInt32 9) : (c.saving s).leave = c.leave := rfl

end Cpu

theorem Cpu.serve_saving (c : Cpu) (s : Vector UInt32 9) (service : Service) :
    (c.saving s).serve service = (c.serve service).saving s := by
  have hframe : (c.serve service).frame = c.frame := by
    rw [← c.framed_frame, serve_framed c rfl]
    rfl
  calc (c.saving s).serve service
    _ = (c.serve service).framed { c.frame with save := s } :=
      serve_framed c (f := { c.frame with save := s }) rfl service
    _ = (c.serve service).saving s := by
      rw [← hframe]
      rfl

namespace Cpu

variable (c : Cpu) (s : Vector UInt32 9)

theorem loadWord_saving {off : Int} (h : 64 ≤ off) : (c.saving s).loadWord off = c.loadWord off := by
  unfold loadWord
  cases hf : field? off with
  | none => rfl
  | some f =>
    cases f with
    | save slot =>
      have := offset_of_field? hf
      simp only [Field.offset] at this
      omega
    | _ => rfl

def savedAfter (s : Vector UInt32 9) (off : Int) (v : UInt32) : Vector UInt32 9 :=
  match field? off with
  | some (.save slot) => s.put slot v
  | _ => s

theorem storeWord_saving (off : Int) (v : UInt32) :
    (c.saving s).storeWord off v = (c.storeWord off v).saving (savedAfter s off v) := by
  unfold storeWord savedAfter
  cases field? off with
  | none => rfl
  | some f => cases f <;> rfl

theorem saved_storeWord (off : Int) (v : UInt32) :
    (c.storeWord off v).saved = savedAfter c.saved off v := by
  unfold storeWord savedAfter
  cases field? off with
  | none => rfl
  | some f => cases f <;> rfl

theorem loadWord_save (r : Fin 9) : c.loadWord (Layout.save r) = c.saved.get r := by
  unfold loadWord
  rw [show Layout.save r = (Field.save r).offset from rfl, field?_offset]
  rfl

end Cpu

end Recompiler
