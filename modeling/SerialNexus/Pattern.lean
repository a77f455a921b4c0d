import SerialNexus.Graph
import SerialNexus.Occurrences
import SerialNexus.Words

/-! # The scan window of a pattern wait

The match engine of `daemon/src/pattern.rs`: a bounded window over the byte stream, scanned after
each chunk.  The compiled regular expression is a third party's; here a `Matcher` carries the
function it computes, the leftmost-first hit in a haystack.

Offsets are absolute positions in the ingested stream, modulo `2 ^ 64`. -/

namespace SerialNexus

open Occurrences

structure Hit where
  index : ℕ
  start : ℕ
  end_ : ℕ
deriving DecidableEq, Repr

structure Matcher where
  names : List String
  earliest : Chunk → Option Hit

def Matcher.name (m : Matcher) (index : ℕ) : String := m.names.getD index ""

def Matcher.InBounds (m : Matcher) : Prop :=
  ∀ hay hit, m.earliest hay = some hit → hit.start ≤ hit.end_ ∧ hit.end_ ≤ hay.length

inductive PatternKind where
  | literal
  | regex
deriving DecidableEq, Repr

structure PatternSpec where
  name : String
  kind : PatternKind
  bytes : Chunk
deriving DecidableEq, Repr

def needles (specs : List PatternSpec) : List Chunk := specs.map (·.bytes)

def Matcher.literals (specs : List PatternSpec) : Matcher where
  names := specs.map (·.name)
  earliest hay :=
    (leftmost (needles specs) hay).map fun (k, i) =>
      ⟨k, i, i + ((needles specs).getD k []).length⟩

theorem Matcher.literals_inBounds {specs : List PatternSpec} (hne : ∀ p ∈ needles specs, p ≠ []) :
    (Matcher.literals specs).InBounds := by
  intro hay hit h
  obtain ⟨⟨k, i⟩, hki, rfl⟩ := Option.map_eq_some_iff.mp h
  obtain ⟨p, -, hp, -, hle⟩ := (leftmost_eq_some hne hki).occurs.fits hne
  dsimp only
  rw [List.getD_eq_getElem?_getD, hp, Option.getD_some]
  exact ⟨Nat.le_add_right _ _, hle⟩

structure PatternMatch where
  pattern : String
  offset : ℕ
  endOffset : ℕ
  context : Chunk
  contextOffset : ℕ
deriving DecidableEq, Repr

structure ScanWindow where
  matcher : Matcher
  buf : Chunk
  lookback : ℕ
  context : ℕ
  base : ℕ
  scanned : ℕ
  gaps : ℕ
  gapBytes : ℕ

namespace ScanWindow

def new (matcher : Matcher) (lookback context base : ℕ) : ScanWindow :=
  { matcher, buf := [], lookback, context, base, scanned := 0, gaps := 0, gapBytes := 0 }

variable (s : ScanWindow)

def scan : Option PatternMatch :=
  (s.matcher.earliest s.buf).map fun hit =>
    let half := s.context / 2
    let ctxStart := hit.start - half
    let ctxEnd := min (hit.end_ + half) s.buf.length
    let ctx := (s.buf.take ctxEnd).drop ctxStart
    { pattern := s.matcher.name hit.index
      offset := wrappingAdd s.base hit.start
      endOffset := wrappingAdd s.base hit.end_
      context := ctx.take (min ctx.length s.context)
      contextOffset := wrappingAdd s.base ctxStart }

def trim : ScanWindow :=
  if s.buf.length > s.lookback then
    let drop := s.buf.length - s.lookback
    { s with buf := s.buf.drop drop, base := wrappingAdd s.base drop }
  else s

def scanTrim : Option PatternMatch × ScanWindow :=
  match s.scan with
  | some hit => (some hit, s)
  | none => (none, s.trim)

def countGap (gap : ℕ) : ScanWindow :=
  { s with gaps := s.gaps + 1, gapBytes := saturatingAdd s.gapBytes gap }

def seed (ring : Chunk) (base excludedGap : ℕ) : Option PatternMatch × ScanWindow :=
  let s := if excludedGap > 0 then s.countGap excludedGap else s
  { s with base, buf := ring, scanned := s.scanned + ring.length }.scanTrim

def fed (chunk : Chunk) (gapBefore : ℕ) : ScanWindow :=
  let s :=
    if gapBefore > 0 then
      { s.countGap gapBefore with base := wrappingAdd s.base s.buf.length, buf := [] }
    else s
  { s with buf := s.buf ++ chunk, scanned := wrappingAdd s.scanned chunk.length }

def feed (chunk : Chunk) (gapBefore : ℕ) : Option PatternMatch × ScanWindow :=
  (s.fed chunk gapBefore).scanTrim

end ScanWindow
end SerialNexus
