import TapeElf.Bytes
import TapeElf.Location
import TapeElf.Text.Digits
import TapeElf.Text.Hex
import TapeElf.Text.Escape
import TapeElf.Text.Utf8
import TapeElf.Diagnostic
import TapeElf.Journal
import TapeElf.Command
import TapeElf.Op
import TapeElf.Op.Reader
import TapeElf.Balance
import TapeElf.Optimizer.Simplify
import TapeElf.Optimizer.Condense
import TapeElf.Optimizer
import TapeElf.Elf.Class
import TapeElf.Target.Backend
import TapeElf.Target.X86.Instr
import TapeElf.Target.X86.Long
import TapeElf.Target.X86.Protected
import TapeElf.Target.Arm64.Instr
import TapeElf.Target.Arm64.Backend
import TapeElf.Target.Riscv64.Instr
import TapeElf.Target.Riscv64.Constant
import TapeElf.Target.Riscv64.Backend
import TapeElf.Target.S390x.Instr
import TapeElf.Target.S390x.Backend
import TapeElf.Target.Arch
import TapeElf.Code
import TapeElf.Elf.Layout
import TapeElf.Elf.Header
import TapeElf.Sink
import TapeElf.Elf.Executable
import TapeElf.Generator
import TapeElf.Compile
import TapeElf.Disk
import TapeElf.Disk.Tree
import TapeElf.CommandLine.Args
import TapeElf.CommandLine.Job
import TapeElf.CommandLine.Usage
import TapeElf.Main
import TapeElf.Proofs.Execution
import TapeElf.Proofs.Rewriting
import TapeElf.Proofs.Refinement
import TapeElf.Proofs.Runs
import TapeElf.Proofs.Simplified
import TapeElf.Proofs.OpText
import TapeElf.Proofs.OptimizerMeaning
import TapeElf.Proofs.Emission
import TapeElf.Proofs.Backpatching
import TapeElf.Proofs.GeneratorInvariant
import TapeElf.Proofs.X86.Decoding
import TapeElf.Proofs.X86.Fragments
import TapeElf.Proofs.X86.Representation
import TapeElf.Proofs.X86.Simulation
import TapeElf.Proofs.X86.EndToEnd
import TapeElf.Proofs.Acceptance
import TapeElf.Proofs.Canonical
import TapeElf.Proofs.Stopping
import TapeElf.Proofs.FrontEnds
import TapeElf.Proofs.CodeSize
import TapeElf.Proofs.Elf.Image
import TapeElf.Proofs.OptimizedSize
import TapeElf.Proofs.Elf.AddressSpace
import TapeElf.Proofs.PartialCode
import TapeElf.Proofs.Delivery
import TapeElf.Proofs.Disk.Leading
import TapeElf.Proofs.SourceKept
import TapeElf.Proofs.Numbers
import TapeElf.Proofs.Processor
import TapeElf.Proofs.Fragment
import TapeElf.Proofs.Riscv64.Machine
import TapeElf.Proofs.Riscv64.Decoding
import TapeElf.Proofs.Riscv64.Constants
import TapeElf.Proofs.Riscv64.Fragments
import TapeElf.Proofs.Arm64.Machine
import TapeElf.Proofs.Arm64.Fragments
import TapeElf.Proofs.S390x.Machine
import TapeElf.Proofs.S390x.Fragments
import TapeElf.Proofs.X86.Modes
import TapeElf.Proofs.X86.BetweenCalls
import TapeElf.Proofs.Platforms
import TapeElf.Proofs.ManyFiles
import TapeElf.Proofs.S390x.Constants
import TapeElf.Proofs.Arm64.Constants
import TapeElf.Proofs.X86.Registers
import TapeElf.Proofs.OpGrammar
import TapeElf.Proofs.Expansion
import TapeElf.Proofs.NormalForm
import TapeElf.Proofs.Brackets
import TapeElf.Proofs.Elf.Placement
import TapeElf.Proofs.Elf.Headers
import TapeElf.Proofs.Arm64.Shortest
import TapeElf.Proofs.S390x.Pieces
import TapeElf.Proofs.S390x.ZeroRegister
import TapeElf.Proofs.Json
import TapeElf.Proofs.ErrorLines
