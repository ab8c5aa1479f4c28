import ReflexLlm.Lib.Search

/-! The `<think>` splitter of `src/server/http_server.cpp`: `ThinkSplit`, fed token by token
by the two chat handlers, which see the segments it hands to `emit`. -/

namespace JLLM

open Search

/-- `OPEN`. -/
def openTag : List UInt8 := ['<', 't', 'h', 'i', 'n', 'k', '>'].map Char.toUInt8

/-- `CLOSE`. -/
def closeTag : List UInt8 := ['<', '/', 't', 'h', 'i', 'n', 'k', '>'].map Char.toUInt8

/-- The bytes that `buf += chunk` appends. -/
def cString (chunk : List UInt8) : List UInt8 := chunk.takeWhile (· ≠ 0)

/-- A newline or a space. -/
def isSeparator (b : UInt8) : Bool := b = '\n'.toUInt8 ∨ b = ' '.toUInt8

inductive SegmentKind where
  | reasoning
  | content
deriving DecidableEq

abbrev Segment := SegmentKind × List UInt8

/-- `ThinkSplit::Mode`. -/
inductive SplitMode where
  | init
  | thinking
  | content
deriving DecidableEq

structure ThinkSplit where
  mode : SplitMode := .init
  buf : List UInt8 := []

namespace ThinkSplit

/-- The loop of `feed` from `CONTENT` on. -/
def feedContent (buf : List UInt8) : ThinkSplit × List Segment :=
  (⟨.content, []⟩, if buf = [] then [] else [(.content, buf)])

/-- The loop of `feed` from `THINKING` on. -/
def feedThinking (buf : List UInt8) : ThinkSplit × List Segment :=
  match find closeTag buf with
  | some pos =>
      let rest := feedContent ((buf.drop (pos + closeTag.length)).dropWhile isSeparator)
      (rest.1, (if 0 < pos then [(.reasoning, buf.take pos)] else []) ++ rest.2)
  | none =>
      if closeTag.length < buf.length then
        let safe := buf.length - (closeTag.length - 1)
        (⟨.thinking, buf.drop safe⟩, [(.reasoning, buf.take safe)])
      else (⟨.thinking, buf⟩, [])

/-- The loop of `feed` from `INIT` on. -/
def feedInit (buf : List UInt8) : ThinkSplit × List Segment :=
  if buf.length < openTag.length ∧ openTag.take buf.length = buf then (⟨.init, buf⟩, [])
  else if openTag <+: buf then feedThinking (buf.drop openTag.length)
  else feedContent buf

/-- `feed`: what it leaves behind, and the segments it emits. -/
def feed (t : ThinkSplit) (chunk : List UInt8) : ThinkSplit × List Segment :=
  let buf := t.buf ++ cString chunk
  match t.mode with
  | .init => feedInit buf
  | .thinking => feedThinking buf
  | .content => feedContent buf

/-- `flush`. -/
def flush (t : ThinkSplit) : List Segment :=
  if t.buf = [] then []
  else [(if t.mode = .thinking then .reasoning else .content, t.buf)]

/-- `feed` for one token text after the other. -/
def feedAll (t : ThinkSplit) : List (List UInt8) → ThinkSplit × List Segment
  | [] => (t, [])
  | chunk :: chunks =>
      let rest := (t.feed chunk).1.feedAll chunks
      (rest.1, (t.feed chunk).2 ++ rest.2)

/-- `feed` for one token text after the other, then `flush`. -/
def run (t : ThinkSplit) : List (List UInt8) → List Segment
  | [] => t.flush
  | chunk :: chunks => (t.feed chunk).2 ++ (t.feed chunk).1.run chunks

end ThinkSplit

/-- The segments of one kind, put together as `absorb` of `build_completion` does. -/
def absorbed (kind : SegmentKind) (segments : List Segment) : List UInt8 :=
  (segments.filter (·.1 = kind)).flatMap (·.2)

/-- `reasoning` and `content` of a completion whose tokens have these texts. -/
def splitChunks (chunks : List (List UInt8)) : List UInt8 × List UInt8 :=
  let segments := ThinkSplit.run {} chunks
  (absorbed .reasoning segments, absorbed .content segments)

end JLLM
