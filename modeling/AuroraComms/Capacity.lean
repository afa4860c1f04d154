import AuroraComms.Growth

/-! A server with few clients. While no more than half of the buckets can be in
use, neither table of the main loop grows, so no loop meets a freed bucket, and
with descriptors that are reused from the lowest on no two clients share one:
nothing is left to assume. -/
namespace AuroraComms
open Meta Library.Run

/-- `send` takes no more than it is given. -/
def Env.Within (env : Env) : Prop := ∀ h data n, env.send h data = some n → n ≤ data.length

/-- Both tables of the main loop as they were made, for few clients. -/
structure App.Unspent (app : App) : Prop where
  clients : app.clients.Unspent clientsMax
  handles : app.fromHandle.Unspent clientsMax
  few : app.clients.len ≤ clientsMax / 2

/-! ## Whole runs -/

section Runs
variable {d : Nat} {env : Env} {sys sys' : Sys}

/-- The states of a server that never had many clients. -/
structure Sys.Spacious (d : Nat) (sys : Sys) : Prop where
  good : sys.Good
  sockets : Sockets d sys.app
  seats : Seats d sys.app
  unspent : sys.app.Unspent

theorem Sys.Spacious.apart (spacious : sys.Spacious d) :
    sys.app.clients.Unshared ∧ sys.app.fromHandle.Unshared := by
  obtain ⟨_, sockets, seats, _⟩ := spacious
  exact ⟨unshared_of_near sockets.wired.clients sockets.doubled fun h listed =>
      sockets.near h ((mem_clients sockets.wired).mp listed),
    unshared_of_near seats.sound seats.doubled fun h listed =>
      seats.near h ((Map.mem_keys handleEq_exact seats.sound).mp listed)⟩

/-- The descriptor of a new connection is no client's. -/
theorem Sys.Spacious.fresh (spacious : sys.Spacious d) (lowest : LowestFree d env sys) {polled : List Handle}
    {fd : Handle} {nonblocking ntop : Bool} (waiting : sys.point = .wait polled)
    (accepting : env.accept = .socket fd nonblocking ntop) : sys.app.clientOf fd = none := by
  obtain ⟨⟨⟨_, free⟩, _⟩, _⟩ := lowest polled fd nonblocking ntop waiting accepting
  by_contra there
  refine free (.inr ?_)
  rw [spacious.sockets.opened, App.outOf, Option.isSome_map]
  exact Option.isSome_iff_ne_none.mpr there

/-- Nothing is left to assume of the tables. -/
theorem Sys.Spacious.separate (spacious : sys.Spacious d) (lowest : LowestFree d env sys)
    (within : env.Within) : Separate env sys where
  fresh _ _ _ _ waiting accepting := spacious.fresh lowest waiting accepting
  within := within
  clients := spacious.unspent.clients.readable env.quiet
  handles := spacious.unspent.handles.readable env.quiet
  apart := spacious.apart

end Runs
end AuroraComms
