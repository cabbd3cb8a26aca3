import T21.Cli.Workspace
import T21.Main
import T21.Proofs.Clean
import T21.Proofs.Extend
import T21.Proofs.Grammar
import T21.Proofs.Image
import T21.Proofs.Reassemble
import T21.Proofs.Spelling
import T21.Proofs.Stream
import T21.Proofs.Disassemble
import T21.Proofs.Landing
import T21.Proofs.Rename
import T21.Proofs.Delivery
import T21.Proofs.Rom
import T21.Proofs.Opcodes
import T21.Proofs.Blame
import T21.Proofs.Lexemes
import T21.Proofs.Surplus
import T21.Proofs.Refusal
import T21.Proofs.Damage
import T21.Proofs.Chronicle
import T21.Proofs.HexDump
import T21.Proofs.Foreign
