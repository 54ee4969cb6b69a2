import Pinout.Source.Piece

/-!
# Pinout.Source.View

The three views of a source text:

* `stripped`  — every comment removed, each block comment and attribute a space;
* `described` — as `stripped`, with the comments at line ends and the documentation lines;
* `docLines`  — the text of the documentation lines, which are whole-line comments that open
  with `//>`.

`ofPieces_append` says that the views of two runs of pieces are the views of each run, where only
what stands on the line the seam cuts is carried over.
-/

namespace Pinout
namespace Source

def docMarker : Text := "//>".toList

structure Views where
  stripped : Text
  described : Text
  docLines : List Text
  deriving DecidableEq, Repr

namespace Views

def empty : Views := ⟨[], [], []⟩

def append (a b : Views) : Views :=
  ⟨a.stripped ++ b.stripped, a.described ++ b.described, a.docLines ++ b.docLines⟩

instance : Append Views := ⟨append⟩

/-- The same text in both text views. -/
def shown (t : Text) : Views := ⟨t, t, []⟩

/-- What a piece adds to the views, where `atStart` says that only blanks stand before it on its
line. -/
def ofPiece (atStart : Bool) : Piece → Views
  | .code t | .quoted t => shown t
  | .attr _ | .blockComment _ => shown [' ']
  | .newline => shown ['\n']
  | .lineComment t =>
    if atStart then
      match Text.dropLead? docMarker t with
      | some doc => ⟨[], t, [doc]⟩
      | none => empty
    else ⟨[], t, []⟩

/-- Whether only blanks stand before what follows the piece on its line. -/
def atStartAfter (atStart : Bool) : Piece → Bool
  | .newline => true
  | .code t => atStart && t.allBlank
  | _ => false

def ofPieces (atStart : Bool) : List Piece → Views
  | [] => empty
  | p :: rest => ofPiece atStart p ++ ofPieces (atStartAfter atStart p) rest

theorem append_def (a b : Views) : a ++ b =
    ⟨a.stripped ++ b.stripped, a.described ++ b.described, a.docLines ++ b.docLines⟩ := rfl

theorem empty_append (a : Views) : empty ++ a = a := rfl

theorem append_assoc (a b c : Views) : a ++ b ++ c = a ++ (b ++ c) := by
  simp [append_def]

theorem ofPieces_append (atStart : Bool) (ps qs : List Piece) :
    ofPieces atStart (ps ++ qs) =
      ofPieces atStart ps ++ ofPieces (ps.foldl atStartAfter atStart) qs := by
  induction ps generalizing atStart with
  | nil => simp [ofPieces, empty_append]
  | cons p ps ih => simp [ofPieces, ih, append_assoc]

end Views

/-- The views of a source text. -/
def views (source : Text) : Views := Views.ofPieces true (pieces source)

end Source
end Pinout
