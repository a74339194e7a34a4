/-!
The help pages of the command line.
-/
namespace FlowGraph.CommandLine

/-- The pages: one for the program, one for each command. -/
inductive Page where
  | program | run | validate | nodes
  deriving DecidableEq, Repr

def Page.lines : Page → List String
  | program => [
    "usage: scriptgraph [-h] [--config CONFIG] [-v] \x7brun,validate,nodes\x7d ...",
    "",
    "Run and inspect visual script graphs",
    "",
    "positional arguments:",
    "  \x7brun,validate,nodes\x7d  Command to run",
    "    run                 Run a graph",
    "    validate            Check a graph for problems",
    "    nodes               List available node types",
    "",
    "options:",
    "  -h, --help            show this help message and exit",
    "  --config CONFIG       Settings file (JSON or TOML)",
    "  -v, --verbose         Debug logging",
    "",
    "Examples:",
    "  scriptgraph run graphs/hello.json",
    "  scriptgraph run graphs/countdown.json --ticks 10 --tick-seconds 0.1",
    "  scriptgraph validate graphs/hello.json",
    "  scriptgraph nodes --search string",
    "        "]
  | run => [
    "usage: scriptgraph run [-h] [--ticks TICKS] [--tick-seconds TICK_SECONDS]",
    "                       [--max-steps MAX_STEPS]",
    "                       graph",
    "",
    "positional arguments:",
    "  graph                 Graph document (JSON)",
    "",
    "options:",
    "  -h, --help            show this help message and exit",
    "  --ticks TICKS         Update ticks to fire",
    "  --tick-seconds TICK_SECONDS",
    "                        Seconds per tick",
    "  --max-steps MAX_STEPS",
    "                        Override the step limit"]
  | validate => [
    "usage: scriptgraph validate [-h] graph",
    "",
    "positional arguments:",
    "  graph       Graph document (JSON)",
    "",
    "options:",
    "  -h, --help  show this help message and exit"]
  | nodes => [
    "usage: scriptgraph nodes [-h] [--category CATEGORY] [--search SEARCH]",
    "",
    "options:",
    "  -h, --help           show this help message and exit",
    "  --category CATEGORY  Only this category",
    "  --search SEARCH      Filter by name or description"]

end FlowGraph.CommandLine
