import Verilower.Session

namespace Verilower

inductive RunError where
  /-- A diagnostic points into a file that does not exist. -/
  | fileMissing
  /-- Something was refused. -/
  | refused

def RunError.message : RunError → String
  | .fileMissing => "file missing"
  | .refused => "exiting with translation errors"

/-- How a run ended, what it reported and what it logged. -/
structure RunResult where
  outcome : Except RunError String
  report : String
  log : Array Record

/-- Generates the program of a code base. Warnings and errors are reported; with an error there is
no text. -/
def run (code : CodeBase) (options : Options) : Except Failure RunResult :=
  match (Session.start code Prelude.standard options).generate with
  | (.error e, _) => .error e
  | (.ok program, s) =>
    let report := s.report .warning
    if report.fileMissing then
      .ok { outcome := .error .fileMissing, report := report.text, log := s.registry.log }
    else if s.registry.hasErrors then
      let s := s.log .error "boogie generation finished with errors"
      .ok { outcome := .error .refused, report := report.text, log := s.registry.log }
    else
      .ok { outcome := .ok program.render, report := report.text, log := s.registry.log }

end Verilower
