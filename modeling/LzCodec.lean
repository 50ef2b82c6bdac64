import LzCodec.Bytes
import LzCodec.Limits
import LzCodec.Powers
import LzCodec.Corruption
import LzCodec.Effort
import LzCodec.Leb128
import LzCodec.Checksum
import LzCodec.Bits.Writer
import LzCodec.Bits.Reader
import LzCodec.Huffman.Lengths
import LzCodec.Huffman.Canonical
import LzCodec.Huffman.Encoder
import LzCodec.Huffman.Decoder
import LzCodec.Token
import LzCodec.Slot
import LzCodec.Replay
import LzCodec.Token.Coded
import LzCodec.Block
import LzCodec.Search.Repeat
import LzCodec.Search.Geometry
import LzCodec.Search.Index
import LzCodec.Search.Finder
import LzCodec.Parse
import LzCodec.Frame.Header
import LzCodec.Frame.BlockHeader
import LzCodec.Frame.Encode
import LzCodec.Frame.Decode
import LzCodec.Text.Blank
import LzCodec.Text.Numeral
import LzCodec.Text.Decimal
import LzCodec.Level
import LzCodec.Sizes
import LzCodec.Failure
import LzCodec.Stream
import LzCodec.Files.Host
import LzCodec.Files.Codec
import LzCodec.Files.Store
import LzCodec.Files.World
import LzCodec.Foreign
import LzCodec.CommandLine.Report
import LzCodec.CommandLine.Arguments
import LzCodec.CommandLine.Usage
import LzCodec.CommandLine.Run
import LzCodec.Main
import LzCodec.Proofs.Bits.Strings
import LzCodec.Proofs.Bits.Streams
import LzCodec.Proofs.Bits.Cursor
import LzCodec.Proofs.Slots
import LzCodec.Proofs.Huffman.Trees
import LzCodec.Proofs.Huffman.Lengths
import LzCodec.Proofs.Huffman.Codewords
import LzCodec.Proofs.Huffman.Tables
import LzCodec.Proofs.Huffman.Siblings
import LzCodec.Proofs.Huffman.Optimality
import LzCodec.Proofs.Huffman.Scaling
import LzCodec.Proofs.Huffman.Costs
import LzCodec.Proofs.Huffman.Depths
import LzCodec.Proofs.Huffman.Occurrences
import LzCodec.Proofs.Expansion
import LzCodec.Proofs.Payloads
import LzCodec.Proofs.PayloadSizes
import LzCodec.Proofs.Search.Longest
import LzCodec.Proofs.Search.Matches
import LzCodec.Proofs.Search.Trails
import LzCodec.Proofs.Search.Chains
import LzCodec.Proofs.Search.Insertions
import LzCodec.Proofs.Search.Refinement
import LzCodec.Proofs.Lookahead
import LzCodec.Proofs.Numbers
import LzCodec.Proofs.Parsing
import LzCodec.Proofs.Frames
import LzCodec.Proofs.Delimiting
import LzCodec.Proofs.Grammar
import LzCodec.Proofs.EmptyBlocks
import LzCodec.Proofs.Lossless
import LzCodec.Proofs.Machine.Words
import LzCodec.Proofs.FrameSizes
import LzCodec.Proofs.Machine.Reader
import LzCodec.Proofs.Machine.Decoder
import LzCodec.Proofs.Machine.Replay
import LzCodec.Proofs.Machine.Unpack
import LzCodec.Proofs.Machine.Decompress
import LzCodec.Proofs.Machine.Writer
import LzCodec.Proofs.Machine.BitSessions
import LzCodec.Proofs.Machine.Lengths
import LzCodec.Proofs.Machine.Pack
import LzCodec.Proofs.Machine.Prefix
import LzCodec.Proofs.Machine.Footprint
import LzCodec.Proofs.Machine.Finder
import LzCodec.Proofs.Machine.Parser
import LzCodec.Proofs.Machine.Slots
import LzCodec.Proofs.Machine.Compress
import LzCodec.Proofs.Splitting
import LzCodec.Proofs.Machine.Filling
import LzCodec.Proofs.Machine.Sequences
import LzCodec.Proofs.Machine.Queries
import LzCodec.Proofs.Machine.Agreement
import LzCodec.Proofs.Machine.Tables
import LzCodec.Proofs.Consumption
import LzCodec.Proofs.Growth
import LzCodec.Proofs.CodeLengths
import LzCodec.Proofs.CodeOrder
import LzCodec.Proofs.CanonicalCodes
import LzCodec.Proofs.CodewordLookup
import LzCodec.Proofs.Messages
import LzCodec.Proofs.Bits.Numerals
import LzCodec.Proofs.Huffman.Entries
import LzCodec.Proofs.CodeTables
import LzCodec.Proofs.PayloadEnds
import LzCodec.Proofs.Groups
import LzCodec.Proofs.Headers
import LzCodec.Proofs.Machine.Counting
import LzCodec.Proofs.Streams
import LzCodec.Proofs.Files.Paths
import LzCodec.Proofs.Memory
import LzCodec.Proofs.Files.Calls
