import HuffmanStrings.Bits.Reader
import HuffmanStrings.Bits.Writer
import HuffmanStrings.Main
import HuffmanStrings.Proofs.Bits.Framing
import HuffmanStrings.Proofs.Bits.Tape
import HuffmanStrings.Proofs.Bits.Writer
import HuffmanStrings.Proofs.Code.ClosedForm
import HuffmanStrings.Proofs.Code.Frequency
import HuffmanStrings.Proofs.Code.Limit
import HuffmanStrings.Proofs.Code.Relabelling
import HuffmanStrings.Proofs.Codebook.Acceptance
import HuffmanStrings.Proofs.Codebook.Binary
import HuffmanStrings.Proofs.Codebook.Json
import HuffmanStrings.Proofs.Codebook.Normal
import HuffmanStrings.Proofs.Coder.Completeness
import HuffmanStrings.Proofs.Coder.Counters
import HuffmanStrings.Proofs.Coder.Emitting
import HuffmanStrings.Proofs.Coder.Mixed
import HuffmanStrings.Proofs.Coder.Production
import HuffmanStrings.Proofs.Coder.Safety
import HuffmanStrings.Proofs.Coder.Samples
import HuffmanStrings.Proofs.Coder.Sentinel
import HuffmanStrings.Proofs.Coder.Stopping
import HuffmanStrings.Proofs.Coder.Streaming
import HuffmanStrings.Proofs.Coder.Truncation
import HuffmanStrings.Proofs.Json.Reader
import HuffmanStrings.Proofs.Symbol.Supply
import HuffmanStrings.Proofs.Tool.Faults
import HuffmanStrings.Proofs.Tool.Repacking
