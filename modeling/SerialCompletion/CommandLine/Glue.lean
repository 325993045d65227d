import SerialCompletion.Settings.Basic

/-!
# Shell glue

The script that makes a shell ask this program for the completion of another
one.  Each shell calls a function that passes its line up to the cursor and
takes the bash form of the offer.
-/

namespace SerialCompletion.CommandLine

inductive Shell where
  | bash
  | zsh
  | fish
  deriving DecidableEq, Repr

/-- The shell with a name, in capital or small letters. -/
def Shell.ofName? (name : Text) : Option Shell :=
  let lowered := name.map Char.toLower
  if lowered = "bash".toList then some .bash
  else if lowered = "zsh".toList then some .zsh
  else if lowered = "fish".toList then some .fish
  else none

def unsupportedShell (name : Text) : Failure :=
  .settings (.generic ("Unsupported shell: ".toList ++ name ++
    ". Supported shells: bash, zsh, fish".toList))

def functionName (program : Text) : Text :=
  "_picocomp_".toList ++ program.map fun c => if c.isAlphanum then c else '_'

/-- The lines of the bash glue: hints from the first line of the output, candidates from the rest. -/
def bashLines (program function : Text) : List Text :=
  ["# Completion for ".toList ++ program ++ " provided by picocomp".toList,
    function ++ "() \x7b".toList,
    "    local out hints hint",
    "    out=$(picocomp complete --format bash -- \"$\x7bCOMP_LINE:0:COMP_POINT\x7d\" 2>/dev/null) || return",
    "    hints=$\x7bout%%$'\\n'*\x7d",
    "    COMPREPLY=()",
    "    if [[ $out == *$'\\n'* ]]; then",
    "        mapfile -t COMPREPLY <<< \"$\x7bout#*$'\\n'\x7d\"",
    "    fi",
    "    for hint in $hints; do",
    "        case $hint in",
    "            nospace|nosort|default) compopt -o \"$hint\" ;;",
    "            commands) COMPREPLY+=($(compgen -c -- \"$\x7bCOMP_WORDS[COMP_CWORD]\x7d\")) ;;",
    "        esac",
    "    done",
    "\x7d",
    "complete -F ".toList ++ function ++ " ".toList ++ program]

/-- The lines of the zsh glue: candidates replace the text from the reported offset. -/
def zshLines (program function : Text) : List Text :=
  ["# Completion for ".toList ++ program ++ " provided by picocomp".toList,
    function ++ "() \x7b".toList,
    "    local line=$\x7bBUFFER[1,CURSOR]\x7d",
    "    local -a lines hints opts",
    "    lines=(\"$\x7b(@f)$(picocomp complete --format bash -- \"$line\" 2>/dev/null)\x7d\")",
    "    hints=($\x7b=lines[1]\x7d)",
    "    local start=$\x7b$\x7b(M)hints:#start=*\x7d#start=\x7d",
    "    local frag=$\x7bline:$\x7bstart:-0\x7d\x7d",
    "    if [[ $PREFIX == *\"$frag\" ]]; then",
    "        IPREFIX+=$\x7bPREFIX%\"$frag\"\x7d",
    "        PREFIX=$frag",
    "    fi",
    "    (( $\x7bhints[(Ie)nospace]\x7d )) && opts+=(-S '')",
    "    (( $\x7bhints[(Ie)nosort]\x7d )) && opts+=(-V ".toList ++ function ++ ")".toList,
    "    (( $\x7bhints[(Ie)commands]\x7d )) && \x7b _command_names; return \x7d",
    "    if (( $\x7b#lines\x7d > 1 )); then",
    "        compadd -Q -U \"$\x7bopts[@]\x7d\" -- \"$\x7b(@)lines[2,-1]\x7d\"",
    "    elif (( $\x7bhints[(Ie)default]\x7d )); then",
    "        _files",
    "    fi",
    "\x7d",
    "compdef ".toList ++ function ++ " ".toList ++ program]

/-- The lines of the fish glue: candidates are widened to the token that fish replaces. -/
def fishLines (program function : Text) : List Text :=
  ["# Completion for ".toList ++ program ++ " provided by picocomp".toList,
    "function ".toList ++ function,
    "    set -l line (commandline -cp)",
    "    set -l token (commandline -ct)",
    "    set -l out (picocomp complete --format bash -- \"$line\" 2>/dev/null)",
    "    or return",
    "    set -l hints (string split ' ' -- $out[1])",
    "    set -l start (string replace -f 'start=' '' -- $hints)",
    "    set -l frag (string sub -s (math $start + 1) -- \"$line\")",
    "    set -l head (string replace -r -- (string escape --style=regex -- \"$frag\")'$' '' \"$token\")",
    "    if test (count $out) -gt 1",
    "        printf '%s\\n' $head$out[2..-1]",
    "    else if contains -- default $hints",
    "        __fish_complete_path \"$token\"",
    "    else if contains -- commands $hints",
    "        __fish_complete_command \"$token\"",
    "    end",
    "end",
    "complete -c ".toList ++ program ++ " -f -a '(".toList ++ function ++ ")'".toList]

def Shell.glueLines (shell : Shell) (program : Text) : List Text :=
  let function := functionName program
  match shell with
  | .bash => bashLines program function
  | .zsh => zshLines program function
  | .fish => fishLines program function

def glue (shellName program : Text) : Except Failure Text :=
  match Shell.ofName? shellName with
  | none => .error (unsupportedShell shellName)
  | some shell => .ok ((shell.glueLines program).flatMap fun line => line ++ ['\n'])

end SerialCompletion.CommandLine
