import Snappy.Bits.Numeral
import Snappy.Block.Decompression
import Snappy.Checked.Build
import Snappy.Checked.Decoding
import Snappy.Checked.Expansion
import Snappy.Checked.Header
import Snappy.Checked.WidthMask
import Snappy.Decoding.Displacement
import Snappy.Decoding.Provenance
import Snappy.Decoding.Restart
import Snappy.Decoding.Spelling
import Snappy.Element.Expansion
import Snappy.WidthMask.Text
import Snappy.Proofs.Element.Bound
import Snappy.Proofs.Decoding.Records
import Snappy.Proofs.Decoding.Maximality
import Snappy.Proofs.Decoding.NextSymbol
import Snappy.Proofs.Decoding.Tiling
import Snappy.Proofs.Decoding.Restriction
import Snappy.Proofs.Decoding.Truncation
import Snappy.Proofs.Decoding.Restart
import Snappy.Proofs.Decoding.Expansion
import Snappy.Proofs.Symbol.Agreement
import Snappy.Proofs.Symbol.Splitting
import Snappy.Proofs.Decoding.Displacement
import Snappy.Proofs.Decoding.Location
import Snappy.Proofs.Decoding.Provenance
import Snappy.Proofs.Decoding.Spelling
import Snappy.Proofs.Header.Digits
import Snappy.Proofs.Block.Body
import Snappy.Proofs.Block.Language
import Snappy.Proofs.Block.Concatenation
import Snappy.Proofs.Block.PrefixFree
import Snappy.Proofs.Block.DeclaredLength
import Snappy.Proofs.Block.Destination
import Snappy.Proofs.Block.Bound
import Snappy.Proofs.Block.Refusal
import Snappy.Proofs.Checked.Arithmetic
import Snappy.Proofs.Checked.Build
import Snappy.Proofs.Checked.Opening
import Snappy.Proofs.Checked.Header
import Snappy.Proofs.Checked.Symbol
import Snappy.Proofs.Checked.Decoding
import Snappy.Proofs.Checked.Expansion
import Snappy.Proofs.Checked.WidthMask
import Snappy.Proofs.Bits.Packing
import Snappy.Proofs.Bits.Text
import Snappy.Proofs.Bits.Positions
import Snappy.Proofs.WidthMask.Text
import Snappy.Proofs.WidthMask.Codes
import Snappy.Proofs.WidthMask.Representation
import Snappy.Proofs.WidthMask.Packing
import Snappy.Proofs.WidthMask.Threshold
import Snappy.Proofs.WidthMask.Windows
