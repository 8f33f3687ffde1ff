import Popfleet.Store.Basic
import Popfleet.Lib.Transition

open FileSystem

namespace Store

-- What a history records besides the results of `save`: the ids for which `Delete` was called, those
-- for which it returned true, and the machines `Mint` returned.
inductive Event
  | minted (m : Machine)
  | deleting (id : String)
  | deleted (id : String)
  deriving DecidableEq

-- A machine with the state file on its disk, and the process with the store while it runs. `saved` is
-- the in-memory map as it was at the last save whose rename took effect, `drawn` the pairs of id and
-- token that `Mint` drew at random, newest first.
structure Sys where
  vol   : Volume
  proc  : Option Machines
  saved : Option Machines := none
  drawn : List (String × String) := []
  log   : List Event := []

inductive Call
  | start
  | mint (id name token : String)
  | touch (id name ver : String) (now : Time)
  | delete (id : String)
  | stop

namespace Sys

-- An operation has returned, or crashed when `proc` is none, after saving `s` if anything.
def after (σ : Sys) (s : Machines) (v : Volume) (proc : Option Machines) : Sys :=
  { σ with vol := v, proc, saved := if v.renames = σ.vol.renames then σ.saved else some s }

def draw (σ : Sys) (id token : String) : Sys :=
  { σ with drawn := (id, token) :: σ.drawn }

def record (σ : Sys) (e : Event) : Sys :=
  { σ with log := e :: σ.log }

variable (J : Codec) (path : Path)

def step (σ : Sys) : Call × List Outcome → Option Sys
  | (.start, os) =>
    match σ.proc with
    | some _ => none
    | none   =>
      match Open J path σ.vol os with
      | (.value (.store s), v, _) => some { σ with vol := v, proc := some s }
      | (_, v, _)                 => some { σ with vol := v }
  | (.mint id name token, os) =>
    σ.proc.map fun s =>
      let σ := σ.draw id token
      let m : Machine := { id, name, token }
      match Mint J path s id name token σ.vol os with
      | (.value (s', some m), v, _) => (σ.after (s.insert m) v (some s')).record (.minted m)
      | (.value (s', none), v, _)   => σ.after (s.insert m) v (some s')
      | (.crashed, v, _)            => σ.after (s.insert m) v none
  | (.touch id name ver now, os) =>
    σ.proc.map fun s =>
      match Touch J path s id name ver now σ.vol os with
      | (.value s', v, _) => σ.after (s.touch id name ver now) v (some s')
      | (.crashed, v, _)  => σ.after (s.touch id name ver now) v none
  | (.delete id, os) =>
    σ.proc.map fun s =>
      let σ := σ.record (.deleting id)
      match Delete J path s id σ.vol os with
      | (.value (s', true), v, _)  => (σ.after (s.erase id) v (some s')).record (.deleted id)
      | (.value (s', false), v, _) => σ.after (s.erase id) v (some s')
      | (.crashed, v, _)           => σ.after (s.erase id) v none
  | (.stop, _) => σ.proc.map fun _ => { σ with proc := none }

-- A history begins with no state file and no process.
def history : Transition Sys (Call × List Outcome) where
  Init σ := σ.vol.disk path = none ∧ σ.proc = none ∧ σ.saved = none ∧ σ.drawn = [] ∧ σ.log = []
  step   := step J path

-- No id and no token was drawn twice.
def Fresh (σ : Sys) : Prop :=
  (σ.drawn.map (·.1)).Nodup ∧ (σ.drawn.map (·.2)).Nodup

end Sys
end Store
