import SerialCompletion.Text.Basic

/-!
# The option table of picocom

What an option of the serial terminal expects after it, the values that some
of these arguments are limited to, the options in the order of the help text
with their spellings, and the names of the character mappings.
-/

namespace SerialCompletion.Catalogue

/-! ## Arguments -/

inductive ArgumentKind where
  | flag
  | baud
  | flow
  | parity
  | dataBits
  | stopBits
  | mapList
  | file
  | command
  /-- Any text, with nothing to offer. -/
  | free
  deriving DecidableEq, Repr

def baudRates : List Text :=
  ["50", "75", "110", "134", "150", "200", "300", "600", "1200", "1800", "2400", "4800", "9600",
    "19200", "38400", "57600", "115200", "230400", "460800", "500000", "576000", "921600",
    "1000000", "1152000", "1500000", "2000000", "2500000", "3000000", "3500000", "4000000"]

def flowModes : List Text := ["x", "h", "n"]

def parityModes : List Text := ["o", "e", "n"]

def dataBitCounts : List Text := ["5", "6", "7", "8"]

def stopBitCounts : List Text := ["1", "2"]

namespace ArgumentKind

def takesValue : ArgumentKind → Bool
  | .flag => false
  | _ => true

/-- The values that an argument of this kind is limited to, if any. -/
def fixedValues? : ArgumentKind → Option (List Text)
  | .baud => some baudRates
  | .flow => some flowModes
  | .parity => some parityModes
  | .dataBits => some dataBitCounts
  | .stopBits => some stopBitCounts
  | _ => none

end ArgumentKind

/-! ## Options -/

structure OptionEntry where
  /-- The long spelling, with its two dashes. -/
  long : Text
  /-- The short spelling, with its dash. -/
  short : Option Text
  argument : ArgumentKind
  deriving DecidableEq, Repr

/-- All options in help order. -/
def options : List OptionEntry :=
  [⟨"--baud", some "-b", .baud⟩,
    ⟨"--flow", some "-f", .flow⟩,
    ⟨"--parity", some "-y", .parity⟩,
    ⟨"--databits", some "-d", .dataBits⟩,
    ⟨"--stopbits", some "-p", .stopBits⟩,
    ⟨"--escape", some "-e", .free⟩,
    ⟨"--echo", some "-c", .flag⟩,
    ⟨"--noinit", some "-i", .flag⟩,
    ⟨"--noreset", some "-r", .flag⟩,
    ⟨"--hangup", some "-u", .flag⟩,
    ⟨"--nolock", some "-l", .flag⟩,
    ⟨"--send-cmd", some "-s", .command⟩,
    ⟨"--receive-cmd", some "-v", .command⟩,
    ⟨"--imap", some "-I", .mapList⟩,
    ⟨"--omap", some "-O", .mapList⟩,
    ⟨"--emap", some "-E", .mapList⟩,
    ⟨"--logfile", some "-g", .file⟩,
    ⟨"--initstring", some "-t", .free⟩,
    ⟨"--exit-after", some "-x", .free⟩,
    ⟨"--exit", some "-X", .flag⟩,
    ⟨"--lower-rts", none, .flag⟩,
    ⟨"--raise-rts", none, .flag⟩,
    ⟨"--lower-dtr", none, .flag⟩,
    ⟨"--raise-dtr", none, .flag⟩,
    ⟨"--quiet", some "-q", .flag⟩,
    ⟨"--help", some "-h", .flag⟩]

def mapNames : List Text :=
  ["crlf", "crcrlf", "igncr", "lfcr", "lfcrlf", "ignlf", "delbs", "bsdel", "spchex", "tabhex",
    "crhex", "lfhex", "8bithex", "nrmhex"]

/-- The word after which no more options follow. -/
def endOfOptions : Text := "--"

/-- The spellings of an option, the long one first. -/
def OptionEntry.spellings (entry : OptionEntry) : List Text :=
  entry.long :: entry.short.toList

def findOption? (word : Text) : Option OptionEntry :=
  options.find? fun entry => entry.spellings.contains word

def optionNames : List Text :=
  options.flatMap OptionEntry.spellings

end SerialCompletion.Catalogue
