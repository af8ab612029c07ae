import LoxLang.Environment
import LoxLang.Log.Filter
import LoxLang.Report
import LoxLang.Sink

/-!
# Machines

The state of an interpreter: its variables, its output, and a transcript of what went to
the error channel, where log entries and reports of faults appear in order.
-/

namespace LoxLang

inductive Event where
  | entry (entry : Log.Entry)
  | report (report : Report)
  | message (text : String)

structure Machine where
  environment : Environment := .globals
  sink : Sink := .unlimited
  filter : Log.Filter := .off
  transcript : Array Event := #[]

namespace Machine

/-- Adds an entry to the log, if the filter admits it. -/
def log (machine : Machine) (entry : Log.Entry) : Machine :=
  if machine.filter.admits entry then
    { machine with transcript := machine.transcript.push (.entry entry) }
  else machine

def logAll (machine : Machine) (entries : List Log.Entry) : Machine := entries.foldl log machine

/-- Reports faults of a source. -/
def emit (machine : Machine) (style : Report.Style) (source : List Char)
    (filename : Option String) (faults : List Fault) : Machine :=
  let reports := faults.map fun fault => Event.report (.ofFault style source filename fault)
  { machine with transcript := machine.transcript ++ reports }

/-- Writes a message to the error channel. -/
def complain (machine : Machine) (text : String) : Machine :=
  { machine with transcript := machine.transcript.push (.message text) }

def define (machine : Machine) (name : String) (value : Value) : Machine :=
  { machine with environment := machine.environment.define name value }

def pushScope (machine : Machine) : Machine :=
  let inside := { machine with environment := machine.environment.push }
  inside.log (.pushedScope inside.environment.current)

def popScope (machine : Machine) : Machine :=
  if 1 < machine.environment.depth then
    let outside := { machine with environment := machine.environment.pop }
    outside.log (.poppedScope outside.environment.depth)
  else machine

end Machine

end LoxLang
