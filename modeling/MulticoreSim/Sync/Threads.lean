import MulticoreSim.Ooo.InOrder
import MulticoreSim.Sync.Coordinator

/-! # Threads on cores

Every core runs one thread's file through a reader of its own; all readers and
all retirements share one coordinator. Cores tick in any order, and what their
predictors and caches do is left open.
-/

namespace Sync

open Ooo

/-- The predictor and the cache of a core. -/
structure Hardware where
  State : Type
  predict : State → Branch → Bool × State
  update : State → Branch → Bool → State
  l1Full : State → Bool
  l1Ready : State → Nat → Bool
  l1Issue : State → Memory.MemReq → Except String (Option Nat × State)
  l1Complete : State → Nat → State
  l1Tick : State → State

/-- What is around the core of a thread. -/
structure Around (H : Hardware) where
  reader : Reader
  coordinator : Coordinator
  hardware : H.State

variable {H : Hardware}

variable (H) in
def threaded : Surroundings where
  State := Around H
  next o :=
    match o.reader.next (K := Coordinator.sink) o.coordinator with
    | .error fault => .error fault
    | .ok (out, reader, coordinator) => .ok (out, { o with reader, coordinator })
  blocked o := o.reader.pendingSync.isSome
  notifyRetire o tid token ip :=
    match o.coordinator.notifyRetire tid
        { kind := token.kind, syncObjectAddr := token.syncObjectAddr, sequenceNo := token.sequenceNo
          extraArg := token.extraArg, ip } with
    | .error fault => .error fault
    | .ok coordinator => .ok { o with coordinator }
  predict o b := ((H.predict o.hardware b).1, { o with hardware := (H.predict o.hardware b).2 })
  update o b prediction := { o with hardware := H.update o.hardware b prediction }
  l1Full o := H.l1Full o.hardware
  l1Ready o id := H.l1Ready o.hardware id
  l1Issue o req := (H.l1Issue o.hardware req).map fun r => (r.1, { o with hardware := r.2 })
  l1Complete o id := { o with hardware := H.l1Complete o.hardware id }
  l1Tick o := { o with hardware := H.l1Tick o.hardware }

variable (H) in
structure Threads where
  coordinator : Coordinator
  cores : Nat → Core (threaded H)

namespace Threads

/-- Each thread on the core of its own number. -/
def start (numThreads : Nat) (traces : Nat → List TraceRecord) (cfg : Nat → OooConfig)
    (hardware : Nat → H.State) : Threads H where
  coordinator := { numThreads }
  cores i := Core.make (cfg i)
    { reader := { rest := traces i, syncTid := i }, coordinator := { numThreads }
      hardware := hardware i } i

/-- The core of a thread, seeing the coordinator as it is. -/
def core (s : Threads H) (i : Nat) : Core (threaded H) :=
  { s.cores i with outside := { (s.cores i).outside with coordinator := s.coordinator } }

variable (H) in
inductive Action where
  | tick (i : Nat)
  /-- A predictor or cache is changed from outside. -/
  | hardware (i : Nat) (state : H.State)

def put (s : Threads H) (i : Nat) (c : Core (threaded H)) : Threads H where
  coordinator := c.outside.coordinator
  cores := Function.update s.cores i c

variable (H) in
def machine : Machine (Threads H) (Action H) String where
  step s
    | .tick i => ((s.core i).tick).map fun r => s.put i r.2
    | .hardware i state =>
        .ok (s.put i { s.core i with outside := { (s.core i).outside with hardware := state } })

end Threads

end Sync
