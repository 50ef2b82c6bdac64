import LzCodec.CommandLine.Arguments

/-!
# Usage texts

What the program says about itself, and about arguments that it cannot run.
-/

namespace LzCodec

namespace Usage

def version : String := "orz 1.6.2\n"

def helpText : Option Direction → String
  | none =>
    "Lossless LZ compressor\n\n" ++
    "Usage: orz <COMMAND>\n\n" ++
    "Commands:\n" ++
    "  encode  Compress INPUT into OUTPUT\n" ++
    "  decode  Decompress INPUT into OUTPUT\n" ++
    "  help    Print this message or the help of the given subcommand(s)\n\n" ++
    "Options:\n" ++
    "  -h, --help     Print help\n" ++
    "  -V, --version  Print version\n"
  | some .encode =>
    "Compress INPUT into OUTPUT\n\n" ++
    "Usage: orz encode [OPTIONS] <INPUT> <OUTPUT>\n\n" ++
    "Arguments:\n" ++
    "  <INPUT>   Source file, or `stdin`\n" ++
    "  <OUTPUT>  Target file, or `stdout`\n\n" ++
    "Options:\n" ++
    "  -l, --level <LEVEL>              Compression level (0 fastest, 3 best)\n" ++
    "      --match-depth <MATCH_DEPTH>  Candidates examined per match search\n" ++
    "      --lazy-depth1 <LAZY_DEPTH1>  Candidates examined when looking one byte ahead\n" ++
    "      --lazy-depth2 <LAZY_DEPTH2>  Candidates examined when looking two bytes ahead\n" ++
    "  -s, --silent                     Suppress all messages\n" ++
    "  -v, --verbose...                 Increase verbosity (repeatable)\n" ++
    "  -h, --help                       Print help\n"
  | some .decode =>
    "Decompress INPUT into OUTPUT\n\n" ++
    "Usage: orz decode [OPTIONS] <INPUT> <OUTPUT>\n\n" ++
    "Arguments:\n" ++
    "  <INPUT>   Source file, or `stdin`\n" ++
    "  <OUTPUT>  Target file, or `stdout`\n\n" ++
    "Options:\n" ++
    "  -s, --silent      Suppress all messages\n" ++
    "  -v, --verbose...  Increase verbosity (repeatable)\n" ++
    "  -h, --help        Print help\n"

def hint : String := "\n\nFor more information, try '--help'.\n"

def text : UsageError → String
  | .help topic => helpText topic
  | .version => version
  | .noCommand => helpText none
  | .unknownCommand => "error: unrecognized subcommand" ++ hint
  | .unknownArgument => "error: unexpected argument found" ++ hint
  | .missingPath => "error: the required paths were not provided" ++ hint
  | .conflict => "error: an argument cannot be used twice or with another one" ++ hint
  | .missingValue => "error: a value is required but none was supplied" ++ hint
  | .badValue => "error: invalid value" ++ hint
  | .surplusValue => "error: unexpected value for an argument that takes none" ++ hint

end Usage

end LzCodec
