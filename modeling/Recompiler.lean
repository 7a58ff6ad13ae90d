import Recompiler.Bits
import Recompiler.CodeCache.Arena
import Recompiler.CodeCache.Basic
import Recompiler.Cpu.Access
import Recompiler.Cpu.Basic
import Recompiler.Cpu.Exception
import Recompiler.Cpu.Layout
import Recompiler.Cpu.Memory
import Recompiler.Cpu.Tlb
import Recompiler.Emit.Alu
import Recompiler.Emit.Basic
import Recompiler.Emit.Branch
import Recompiler.Emit.Fp
import Recompiler.Emit.Inline
import Recompiler.Emit.Memory
import Recompiler.Emit.Program
import Recompiler.Emit.Run
import Recompiler.Engine.Basic
import Recompiler.Engine.Compile
import Recompiler.Engine.Run
import Recompiler.Engine.Settings
import Recompiler.EventQueue.Arena
import Recompiler.EventQueue.Basic
import Recompiler.EventQueue.Savestate
import Recompiler.EventQueue.Script
import Recompiler.HostCache.Basic
import Recompiler.HostCache.Float
import Recompiler.Ieee.Arith
import Recompiler.Ieee.Format
import Recompiler.Instr.Basic
import Recompiler.Instr.Build
import Recompiler.Instr.Class
import Recompiler.Instr.Kind
import Recompiler.Instr.Printer
import Recompiler.Instr.Tables
import Recompiler.Interp.Alu
import Recompiler.Interp.Basic
import Recompiler.Interp.Fp
import Recompiler.Interp.Memory
import Recompiler.Ir.Backend
import Recompiler.Ir.Builder
import Recompiler.Ir.Emulator
import Recompiler.Ir.HostRam
import Recompiler.Ir.Instr
import Recompiler.Ir.Machine
import Recompiler.Ir.Native
import Recompiler.Ir.Nodes
import Recompiler.Ir.Program
import Recompiler.Ir.Scratch
import Recompiler.Log
import Recompiler.Main
import Recompiler.Proofs.AddressMap
import Recompiler.Proofs.Agreement
import Recompiler.Proofs.Analyses
import Recompiler.Proofs.Assignments
import Recompiler.Proofs.Backing
import Recompiler.Proofs.BlindRequests
import Recompiler.Proofs.Boundaries
import Recompiler.Proofs.BranchCode
import Recompiler.Proofs.BudgetCaches
import Recompiler.Proofs.BudgetEmission
import Recompiler.Proofs.Budgets
import Recompiler.Proofs.BuilderLabels
import Recompiler.Proofs.CacheSessions
import Recompiler.Proofs.Capacity
import Recompiler.Proofs.CellFrames
import Recompiler.Proofs.CellPlaces
import Recompiler.Proofs.CellSessions
import Recompiler.Proofs.CellSets
import Recompiler.Proofs.CellWords
import Recompiler.Proofs.Charts
import Recompiler.Proofs.ClockEmission
import Recompiler.Proofs.Constants
import Recompiler.Proofs.Context
import Recompiler.Proofs.Crowding
import Recompiler.Proofs.Deadline
import Recompiler.Proofs.DecidedBranches
import Recompiler.Proofs.DelaySlots
import Recompiler.Proofs.Departures
import Recompiler.Proofs.Drafts
import Recompiler.Proofs.Embodiment
import Recompiler.Proofs.Emission
import Recompiler.Proofs.EngineCells
import Recompiler.Proofs.EngineTerms
import Recompiler.Proofs.EntryRegisters
import Recompiler.Proofs.EventArena
import Recompiler.Proofs.EventOrder
import Recompiler.Proofs.Eviction
import Recompiler.Proofs.ExitClocks
import Recompiler.Proofs.Fields
import Recompiler.Proofs.FpAgreement
import Recompiler.Proofs.FpSessions
import Recompiler.Proofs.FpTransfers
import Recompiler.Proofs.Guards
import Recompiler.Proofs.Headers
import Recompiler.Proofs.InlineAccess
import Recompiler.Proofs.Insertions
import Recompiler.Proofs.KnownBits
import Recompiler.Proofs.Labels
import Recompiler.Proofs.Ledgers
import Recompiler.Proofs.LinkCells
import Recompiler.Proofs.MappedTraces
import Recompiler.Proofs.MemoryPath
import Recompiler.Proofs.MultiplyUnit
import Recompiler.Proofs.Narrow
import Recompiler.Proofs.NarrowOps
import Recompiler.Proofs.NodeBuilders
import Recompiler.Proofs.NodeLists
import Recompiler.Proofs.NodeRuns
import Recompiler.Proofs.NormalForms
import Recompiler.Proofs.Observations
import Recompiler.Proofs.Operands
import Recompiler.Proofs.PageMaps
import Recompiler.Proofs.PageTables
import Recompiler.Proofs.Pins
import Recompiler.Proofs.PreciseExceptions
import Recompiler.Proofs.RamAccess
import Recompiler.Proofs.RamBytes
import Recompiler.Proofs.RegisterSessions
import Recompiler.Proofs.Registers
import Recompiler.Proofs.Releases
import Recompiler.Proofs.Requests
import Recompiler.Proofs.Results
import Recompiler.Proofs.Retries
import Recompiler.Proofs.Rewrites
import Recompiler.Proofs.RingLayout
import Recompiler.Proofs.Running
import Recompiler.Proofs.SaveArea
import Recompiler.Proofs.Savestates
import Recompiler.Proofs.Slots
import Recompiler.Proofs.SpaceBudgets
import Recompiler.Proofs.Stillness
import Recompiler.Proofs.StraightCode
import Recompiler.Proofs.Tables
import Recompiler.Proofs.Timer
import Recompiler.Proofs.TlbRefill
import Recompiler.Proofs.TraceShape
import Recompiler.Proofs.Translations
import Recompiler.Proofs.Twins
import Recompiler.Proofs.UnalignedPairs
import Recompiler.Proofs.Walks
import Recompiler.Proofs.Widths
import Recompiler.Proofs.WriteFrames
import Recompiler.Report.Basic
import Recompiler.Report.Image
import Recompiler.Report.Options
import Recompiler.Text.Number
import Recompiler.Text.Numeral
import Recompiler.Text.Quoted
import Recompiler.Text.Table
import Recompiler.Toml.Basic
import Recompiler.Toml.Grammar
import Recompiler.Trace.Basic
import Recompiler.Trace.Boundary
import Recompiler.Trace.Constants
import Recompiler.Trace.KnownBits
import Recompiler.Trace.Simplify
import Recompiler.Trace.Widths
import Recompiler.Vector
