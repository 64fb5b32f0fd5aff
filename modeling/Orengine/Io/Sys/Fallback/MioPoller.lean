import Mathlib.Data.Finset.Basic
import Orengine.Lib.Reach

/-!
# `MioPoller`

The poller of the fallback worker registers a socket with `mio`, under the address of a *slot* that
has the request as its token.  Slots are kept in a pool: when a request is deregistered, or an event
with its token is seen, its slot goes to the pool, and the next request takes it from there.
`registered_sockets` owns the sockets as long as they are registered.

A poll of `mio` gives a batch of events of sockets that are registered, and may give several for one
socket, as `kqueue` does if it can be read and written; `poll` goes through them with nothing in
between.  The registry of `mio` is that of the operating system, which does not fail.  The worker
registers a request only if there is none in flight for the socket, and deregisters only a request
that is in flight, with its own socket and slot.

A request is the socket of an `IoCall`, which the poller reads, with the rest of it.  A lookup in
`registered_sockets` that fails is recorded in `panicked`; the requests that were registered,
reported and deregistered are histories.
-/

namespace Orengine.Io.Mio

open Orengine.Lib

/-- `(IoCall, IoRequestDataPtr)`. -/
structure Request (σ ι : Type*) where
  rawSocket : σ
  data : ι
  deriving DecidableEq

/-- `mio::event::Event`; a token is the address of a slot. -/
structure Event where
  token : ℕ
  isError : Bool
  isReadable : Bool
  isWritable : Bool
  deriving DecidableEq

/-- Whether the request of an event is reported with `Ok`. -/
def Event.isOk (e : Event) : Bool := !(e.isError || (!e.isReadable && !e.isWritable))

/-- `MioPoller`, with the registry of `mio` and the slots that were allocated. -/
structure MioPoller (σ ι : Type*) where
  /-- The sockets that are registered with `mio`, with their tokens. -/
  registry : List (σ × ℕ)
  /-- The keys of `registered_sockets`. -/
  registeredSockets : Finset σ
  requestSlots : List ℕ
  /-- What is written in the slots. -/
  memory : ℕ → Option (Request σ ι)
  /-- How many slots were allocated. -/
  allocated : ℕ

namespace MioPoller

variable {σ ι : Type*}

def new : MioPoller σ ι := ⟨[], ∅, [], fun _ => none, 0⟩

/-- `write_request_and_get_ptr`: the slot, and the poller. -/
def writeRequestAndGetPtr (p : MioPoller σ ι) (r : Request σ ι) : ℕ × MioPoller σ ι :=
  match p.requestSlots with
  | slot :: rest =>
    (slot, { p with requestSlots := rest, memory := Function.update p.memory slot (some r) })
  | [] =>
    (p.allocated, { p with
      memory := Function.update p.memory p.allocated (some r)
      allocated := p.allocated + 1 })

/-- `release_request_slot`: what is read from the slot, and the poller. -/
def releaseRequestSlot (p : MioPoller σ ι) (slot : ℕ) :
    Option (Request σ ι) × MioPoller σ ι :=
  (p.memory slot, { p with requestSlots := slot :: p.requestSlots })

variable [DecidableEq σ]

def register (p : MioPoller σ ι) (r : Request σ ι) : MioPoller σ ι :=
  match p.writeRequestAndGetPtr r with
  | (slot, p) =>
    { p with
      registry := p.registry ++ [(r.rawSocket, slot)]
      registeredSockets := insert r.rawSocket p.registeredSockets }

/-- `deregister_`; `none` if the socket is not in `registered_sockets`. -/
def deregisterSocket (p : MioPoller σ ι) (rawSocket : σ) : Option (MioPoller σ ι) :=
  if rawSocket ∈ p.registeredSockets then
    some { p with
      registry := p.registry.filter fun x => x.1 ≠ rawSocket
      registeredSockets := p.registeredSockets.erase rawSocket }
  else none

def deregister (p : MioPoller σ ι) (rawSocket : σ) (slot : ℕ) : Option (MioPoller σ ι) :=
  (p.releaseRequestSlot slot).2.deregisterSocket rawSocket

/-- The loop of `MioPoller::poll` for one event: the poller, and the request that is pushed to
`requests`. -/
def pollEvent (p : MioPoller σ ι) (e : Event) : Option (MioPoller σ ι × Bool × Request σ ι) :=
  match p.releaseRequestSlot e.token with
  | (some r, p) => (p.deregisterSocket r.rawSocket).map fun p => (p, e.isOk, r)
  | (none, _) => none

/-- `MioPoller::poll`, with the events that `mio` gives. -/
def poll (p : MioPoller σ ι) : List Event → Option (MioPoller σ ι × List (Bool × Request σ ι))
  | [] => some (p, [])
  | e :: events =>
    match p.pollEvent e with
    | none => none
    | some (p, x) => (p.poll events).map fun (p, requests) => (p, x :: requests)

end MioPoller

/-- A call of the worker. -/
inductive Action (σ ι : Type*) where
  | register (r : Request σ ι)
  | deregister (rawSocket : σ) (slot : ℕ)
  /-- A poll, with the events that `mio` gives. -/
  | poll (events : List Event)

/-- A poller with its history. -/
structure System (σ ι : Type*) where
  poller : MioPoller σ ι
  registered : List (Request σ ι)
  reported : List (Request σ ι)
  deregistered : List (Request σ ι)
  panicked : Bool

namespace System

variable {σ ι : Type*} [DecidableEq σ]

def new : System σ ι := ⟨.new, [], [], [], false⟩

/-- `register` for a socket that has no request in flight. -/
def register (s : System σ ι) (r : Request σ ι) : Option (System σ ι) :=
  if r.rawSocket ∈ s.poller.registry.map Prod.fst then none
  else some { s with
    poller := s.poller.register r
    registered := s.registered ++ [r] }

/-- `deregister` of a request that is in flight. -/
def deregister (s : System σ ι) (rawSocket : σ) (slot : ℕ) : Option (System σ ι) :=
  if (rawSocket, slot) ∈ s.poller.registry then
    match s.poller.deregister rawSocket slot with
    | some p => some { s with
        poller := p
        deregistered := s.deregistered ++ (s.poller.memory slot).toList }
    | none => some { s with panicked := true }
  else none

/-- Whether `mio` can give these events: they are of sockets that are registered. -/
def CanReport (s : System σ ι) (events : List Event) : Prop :=
  ∀ e ∈ events, e.token ∈ s.poller.registry.map Prod.snd

instance (s : System σ ι) (events : List Event) : Decidable (s.CanReport events) :=
  inferInstanceAs (Decidable (∀ e ∈ events, e.token ∈ s.poller.registry.map Prod.snd))

def poll (s : System σ ι) (events : List Event) : Option (System σ ι) :=
  if s.CanReport events then
    match s.poller.poll events with
    | some (p, requests) => some { s with
        poller := p
        reported := s.reported ++ requests.map Prod.snd }
    | none => some { s with panicked := true }
  else none

def step (s : System σ ι) (a : Action σ ι) : Option (System σ ι) :=
  if s.panicked then none
  else
    match a with
    | .register r => s.register r
    | .deregister rawSocket slot => s.deregister rawSocket slot
    | .poll events => s.poll events

end System

end Orengine.Io.Mio
