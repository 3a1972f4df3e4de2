import Tbox.Lib.StdString

/-!
# Splitting a command line

`util/split_cmdline.cpp`: arguments stand between blanks, and quotes keep blanks together.
-/

namespace Tbox.Util

open Tbox.Lib (Bytes)
open Tbox.Lib.StdString

def isBlank (c : UInt8) : Bool := c = 32 ∨ c = 9

def isQuote (c : UInt8) : Bool := c = 39 ∨ c = 34

/-- The loop over the quotes within an argument, which may hold blanks: where it ends, unless a quote does not. -/
def quotedEnd (cmd : Bytes) : Nat → Option Nat → Option Nat → Option (Option Nat)
  | fuel + 1, some quotStartPos, endPos =>
    if endPos.all fun endPos => quotStartPos < endPos then
      match findFirstOf cmd (cmd.getD quotStartPos 0) (quotStartPos + 1) with
      | none => none
      | some quotEndPos =>
        quotedEnd cmd fuel (findFrom isQuote cmd (quotEndPos + 1)) (findFrom isBlank cmd (quotEndPos + 1))
    else some endPos
  | _, _, endPos => some endPos

def splitCmdlineLoop (cmd : Bytes) : Nat → Nat → List Bytes → Option (List Bytes)
  | 0, _, args => some args
  | fuel + 1, endPos, args =>
    match findFrom (fun c => !isBlank c) cmd endPos with
    | none => some args
    | some startPos =>
      let startChar := cmd.getD startPos 0
      if isQuote startChar then
        match findFirstOf cmd startChar (startPos + 1) with
        | none => none
        | some endPos =>
          splitCmdlineLoop cmd fuel (endPos + 1)
            (args ++ [(cmd.drop (startPos + 1)).take (endPos - startPos - 1)])
      else
        match quotedEnd cmd cmd.length (findFrom isQuote cmd startPos) (findFrom isBlank cmd startPos) with
        | none => none
        | some none => some (args ++ [cmd.drop startPos])
        | some (some endPos) =>
          splitCmdlineLoop cmd fuel endPos (args ++ [(cmd.drop startPos).take (endPos - startPos)])

def splitCmdline (cmd : Bytes) : Option (List Bytes) := splitCmdlineLoop cmd (cmd.length + 1) 0 []

end Tbox.Util
