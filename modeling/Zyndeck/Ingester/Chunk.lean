import Zyndeck.Core.Str

namespace Zyndeck

open Str

/-! Splitting a reviewed transcript into retrieval chunks. -/

structure Chunk where
  heading : Text
  page : Nat
  content : Text
  deriving DecidableEq, Repr

namespace Chunk

def maxChunkChars : Nat := 1200

structure Builder where
  chunks : List Chunk
  heading : Text
  page : Nat
  content : Text

namespace Builder

def default : Builder := ⟨[], [], 0, []⟩

def flush (builder : Builder) : Builder :=
  if builder.content = [] then builder
  else
    { builder with
      chunks := builder.chunks ++ [⟨builder.heading, builder.page, builder.content⟩]
      content := [] }

def startSection (heading : Text) (builder : Builder) : Builder :=
  { builder.flush with heading }

def pushLine (line : Text) (page : Nat) (builder : Builder) : Builder :=
  if builder.content = [] then { builder with page, content := line }
  else if maxChunkChars < builder.content.length + 1 + line.length then
    { builder.flush with page, content := line }
  else { builder with content := builder.content ++ '\n' :: line }

def finish (builder : Builder) : List Chunk := builder.flush.chunks

end Builder

/-- The page of a provenance marker, such as `<!-- page 7 -->`. -/
def parsePageMarker (line : Text) : Option Nat := do
  let inner ← stripPrefix "<!--".toList line
  let inner ← stripSuffix "-->".toList inner
  let number ← stripPrefix "page".toList (trim inner)
  parseUsize (trim number)

/-- Scan one line of the transcript with the page it is on. -/
def scan (state : Builder × Nat) (raw : Text) : Builder × Nat :=
  let line := trim raw
  if line = [] then state
  else
    match parsePageMarker line with
    | some page => (state.1, page)
    | none =>
        match stripPrefix "## ".toList line with
        | some heading => (state.1.startSection (trim heading), state.2)
        | none => (state.1.pushLine line state.2, state.2)

def split (transcript : Text) : List Chunk :=
  ((lines transcript).foldl scan (Builder.default, 1)).1.finish

example : split "<!-- page 7 -->\n## Attack\r\nThe attacker hits.\n".toList =
    [⟨"Attack".toList, 7, "The attacker hits.".toList⟩] := by decide

end Chunk

end Zyndeck
