/-!
# Spans — where a piece of source text stands

A span is a half-open range of byte offsets, each held in 32 bits.  Offsets that do not fit are
either refused (`Span.ofRange?`) or cut down to the largest one (`Span.clamp`).  `Span.position`
turns the start of a span into a line and a column: both count from one, and a column counts
characters, not bytes.
-/

namespace Monkey

/-- A range of byte offsets, `start` included and `stop` excluded. -/
structure Span where
  start : UInt32
  stop : UInt32
deriving DecidableEq, Repr, Inhabited

/-- Why a range of offsets is no span. -/
inductive SpanError where
  | startTooLarge (offset : Nat)
  | stopTooLarge (offset : Nat)
deriving DecidableEq, Repr

namespace SpanError

def message : SpanError → String
  | startTooLarge n => s!"span start {n} exceeds u32::MAX"
  | stopTooLarge n => s!"span end {n} exceeds u32::MAX"

end SpanError

/-- A line and a column, both counted from one. -/
structure Position where
  line : Nat
  column : Nat
deriving DecidableEq, Repr

namespace Position

def start : Position := ⟨1, 1⟩

/-- The position behind the character `c` that stands at `p`. -/
def next (p : Position) (c : Char) : Position :=
  if c = '\n' then ⟨p.line + 1, 1⟩ else ⟨p.line, p.column + 1⟩

/-- The position reached from `p` by passing every character that begins before byte `offset` of
the text, or the whole text if it is shorter. -/
def after (p : Position) : List Char → Nat → Position
  | [], _ => p
  | _ :: _, 0 => p
  | c :: cs, offset + 1 => after (p.next c) cs (offset + 1 - c.utf8Size)

end Position

namespace Span

/-- The span of tokens that come from no text. -/
def placeholder : Span := ⟨0, 0⟩

def isPlaceholder (s : Span) : Bool := s = placeholder

/-- The largest offset that a span can hold. -/
def maxOffset : Nat := UInt32.size - 1

/-- The span of a range of offsets; of two offsets that do not fit, the first is reported. -/
def ofRange? (start stop : Nat) : Except SpanError Span :=
  if maxOffset < start then .error (.startTooLarge start)
  else if maxOffset < stop then .error (.stopTooLarge stop)
  else .ok ⟨.ofNat start, .ofNat stop⟩

/-- The span of a range of offsets, each cut down to the largest one that fits. -/
def clamp (start stop : Nat) : Span :=
  ⟨.ofNat (min start maxOffset), .ofNat (min stop maxOffset)⟩

/-- The number of bytes in the span, which is zero if it is reversed. -/
def length (s : Span) : Nat := s.stop.toNat - s.start.toNat

def isEmpty (s : Span) : Bool := s.length = 0

/-- The least span that covers both `s` and `t`. -/
def cover (s t : Span) : Span := ⟨min s.start t.start, max s.stop t.stop⟩

/-- Where the span starts in the text `source`; a start behind the end counts as the end. -/
def position (s : Span) (source : String) : Position :=
  Position.start.after source.toList s.start.toNat

instance : ToString Span where
  toString s := s!"{s.start}..{s.stop}"

theorem clamp_start_toNat (start stop : Nat) :
    (clamp start stop).start.toNat = min start maxOffset := by
  have : min start maxOffset < UInt32.size := by
    simp only [maxOffset, UInt32.size]; omega
  simpa [clamp] using Nat.mod_eq_of_lt this

theorem clamp_stop_toNat (start stop : Nat) :
    (clamp start stop).stop.toNat = min stop maxOffset := by
  have : min stop maxOffset < UInt32.size := by
    simp only [maxOffset, UInt32.size]; omega
  simpa [clamp] using Nat.mod_eq_of_lt this

end Span

end Monkey
