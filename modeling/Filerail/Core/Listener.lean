/-
Module: Filerail.Core.Listener
Layer: Core
Purpose: The accept loop of `filerail_server.c`: what the parent process does from the moment it
  listens, up to the label `parent_clean_up`. What a child does with its client is a parameter. A
  jump to the label ends the loop with `cleanUp`; the child's return from `main` ends it with
  `returned`.
Imports: Filerail.Logic.Program
Main exports: Errno, ServerCall, Desk, deskSem, acceptRound, parent
-/
import Filerail.Logic.Program

namespace Filerail

open ProgramLogic

/-- The errors of `accept` the code or a client gives a meaning to. -/
inductive Errno where
  | eintr
  | econnaborted
  | eproto
  | other (code : Nat)
deriving DecidableEq, Repr

/-- The calls of the accept loop. -/
inductive ServerCall where
  | accept (fd : Nat)
  | getpeername (clifd : Nat)
  | fork
  | close (fd : Nat)
deriving DecidableEq, Repr

/-- What each call returns: a descriptor or an error; whether it succeeded; a process id, which is `0`
    in the child. -/
@[reducible] def ServerCall.Resp : ServerCall → Type
  | .accept _ => Errno ⊕ Nat
  | .getpeername _ => Bool
  | .fork => Option Nat
  | .close _ => Unit

/-- How the loop is left. -/
inductive Leaving where
  | cleanUp (exit_status : Int)
  | returned (exit_status : Int)

abbrev Server (α : Type) := Prog ServerCall ServerCall.Resp α

/-- Make a call. -/
abbrev serverCall (e : ServerCall) : Server e.Resp := Prog.perform e

/-- `filerail_who` -/
def who (clifd : Nat) : Server Bool := serverCall (.getpeername clifd)

section Loop

variable (serve : Nat → Server Int) (fd : Nat)

/-- One round of the accept loop. -/
def acceptRound (_ : Unit) : Server (Unit ⊕ Leaving) := do
  match ← serverCall (.accept fd) with
  | .inl errno =>
      if errno ≠ .eintr then return .inr (.cleanUp (-1)) else return .inl ()
  | .inr clifd =>
      if ← who clifd then
        match ← serverCall .fork with
        | none => return .inr (.cleanUp (-1))
        | some 0 =>
            serverCall (.close fd)
            let exit_status ← serve clifd
            return .inr (.returned exit_status)
        | some (_ + 1) =>
            serverCall (.close clifd)
            return .inl ()
      else return .inr (.cleanUp (-1))

/-- The server from the accept loop on. -/
def parent : Server Int := do
  match ← Prog.iterate (acceptRound serve fd) () with
  | .cleanUp exit_status =>
      serverCall (.close fd)
      return exit_status
  | .returned exit_status => return exit_status

end Loop

/-! ### The process and its clients -/

/-- What the parent has open, and what its calls have returned, the latest first. -/
structure Desk where
  listening : Bool
  clients : List Nat
  log : List (Σ e : ServerCall, e.Resp)

/-- The parent before its first `accept`. -/
def Desk.open : Desk := ⟨true, [], []⟩

/-- A call is entered in the log. -/
def Desk.enter (s : Desk) (event : Σ e : ServerCall, e.Resp) : Desk :=
  { s with log := event :: s.log }

/-- The calls of the parent of all forks; clients and the system may do anything else. A new
    descriptor is one that is not in use. -/
def deskSem (fd : Nat) : Sem ServerCall ServerCall.Resp Desk
  | s, .accept _, .inl errno, s' => s' = s.enter ⟨.accept fd, .inl errno⟩
  | s, .accept _, .inr clifd, s' =>
      clifd ≠ fd ∧ clifd ∉ s.clients ∧
        s' = { s with clients := clifd :: s.clients }.enter ⟨.accept fd, .inr clifd⟩
  | s, .getpeername clifd, known, s' => s' = s.enter ⟨.getpeername clifd, known⟩
  | s, .fork, pid, s' => pid ≠ some 0 ∧ s' = s.enter ⟨.fork, pid⟩
  | s, .close x, _, s' =>
      s' = (if x = fd then { s with listening := false }
        else { s with clients := s.clients.erase x }).enter ⟨.close x, ()⟩

end Filerail
