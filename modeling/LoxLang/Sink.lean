import LoxLang.Text.Utf8

/-!
# Output sinks

A sink keeps the bytes written to it. It may have room for only so many, and flushing it
may fail; both come with the words in which the failure is reported.
-/

namespace LoxLang

/-- The number of bytes that fit, and what is said of the first that does not. -/
structure Sink.Limit where
  room : Nat
  complaint : String

structure Sink where
  written : Array UInt8 := #[]
  limit : Option Sink.Limit := none
  flushComplaint : Option String := none

namespace Sink

/-- A sink that takes everything. -/
def unlimited : Sink := {}

/-- A sink that takes nothing. -/
def full (complaint : String) : Sink := { limit := some ⟨0, complaint⟩ }

/-- Writes as many of the bytes as fit. -/
def write (sink : Sink) (bytes : List UInt8) : Except String Unit × Sink :=
  match sink.limit with
  | none => (.ok (), { sink with written := sink.written ++ bytes })
  | some limit =>
    let free := limit.room - sink.written.size
    if bytes.length ≤ free then (.ok (), { sink with written := sink.written ++ bytes })
    else (.error limit.complaint, { sink with written := sink.written ++ bytes.take free })

def flush (sink : Sink) : Except String Unit :=
  match sink.flushComplaint with
  | none => .ok ()
  | some complaint => .error complaint

/-- Writes a text and flushes. -/
def say (sink : Sink) (text : String) : Except String Unit × Sink :=
  match sink.write (Text.Utf8.encode text) with
  | (.ok (), sink) => (sink.flush, sink)
  | (.error complaint, sink) => (.error complaint, sink)

def writeLine (sink : Sink) (text : String) : Except String Unit × Sink :=
  sink.write (Text.Utf8.encode (text ++ "\n"))

/-- Writes lines one by one up to the first failure, and then flushes. -/
def writeLines : Sink → List String → Except String Unit × Sink
  | sink, [] => (sink.flush, sink)
  | sink, line :: rest =>
    match sink.writeLine line with
    | (.ok (), sink) => sink.writeLines rest
    | (.error complaint, sink) => (.error complaint, sink)

end Sink

end LoxLang
