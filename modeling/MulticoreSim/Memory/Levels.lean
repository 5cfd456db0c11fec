import MulticoreSim.Memory.WriteBack
import MulticoreSim.Memory.WriteThrough

/-! # Levels that look up

A prefetcher looks into the cache above its own to see what is there already.
`Beneath` is what a cache has below it together with that view, so that levels
can be put on one another.
-/

namespace Memory

/-- What a cache has below it. It sees no more of the cache than its lines. -/
structure Beneath extends Below where
  look : State → Cache → State
  lines : ∀ (st : State) {c c' : Cache}, c.SameLines c' → look st c' = look st c

/-- What does not look up. -/
def Below.blind (β : Below) : Beneath where
  toBelow := β
  look st _ := st
  lines _ _ _ _ := rfl

def Beneath.memory : Beneath := Below.memory.blind

/-- The lines of a cache. -/
def Cache.view (c : Cache) : Cache := { cfg := c.cfg, rows := c.rows, mshr := ⟨[]⟩ }

namespace Cache

variable {β : Beneath}

/-- `access` of a cache with a prefetcher, which is asked after a miss that was filled. -/
def accessOver (c : Cache) (pf : Option Prefetcher) (peer : Option Cache) (below : β.State)
    (req : MemReq) : Result β.toBelow × Option Prefetcher × AccessResult :=
  let (r, result) := c.access (β := β.toBelow) (β.look below c) req
  match pf with
  | none => (r, none, result)
  | some pf =>
      if !c.blockIn req.addr && r.cache.blockIn req.addr then
        match pf.onMiss r.cache peer req with
        | (pf, none) => (r, some pf, result)
        | (pf, some byteAddr) =>
            let filled := r.cache.issuePrefetch (β := β.toBelow) (β.look r.below r.cache) byteAddr
            ({ filled with calls := r.calls ++ filled.calls }, some pf, result)
      else (r, some pf, result)

/-- Over what does not look up it is `accessPrefetching`. -/
theorem accessOver_blind {β : Below} (c : Cache) (pf : Option Prefetcher) (peer : Option Cache)
    (below : β.State) (req : MemReq) :
    c.accessOver (β := β.blind) pf peer below req = c.accessPrefetching (β := β) pf peer below req :=
  rfl

def issueOver (c : Cache) (pf : Option Prefetcher) (peer : Option Cache) (below : β.State)
    (req : MemReq) : Result β.toBelow × Option Prefetcher × Option Nat :=
  c.issueBy pf below req (c.accessOver pf peer below req)

end Cache

/-- A next level over what is below it, with the cache above where `peer_above` is set. -/
def Beneath.level (β : Beneath) (peerAbove : Bool) : Beneath where
  State := Option Cache × Served β.toBelow
  access := fun (peer, s) req =>
    let (r, prefetcher, result) := s.cache.accessOver s.prefetcher peer s.below req
    some ((peer, { cache := r.cache, prefetcher, below := r.below }), result,
      result.latency = coherenceSuspendedLatency, r.calls)
  look := fun (_, s) c => (if peerAbove then some c.view else none, s)
  lines := by
    intro st c c' same
    rw [Cache.view, Cache.view, same.cfg, same.rows]

namespace Served

variable {β : Beneath}

def access (s : Served β.toBelow) (peer : Option Cache) (req : MemReq) :
    Served β.toBelow × AccessResult :=
  let (r, prefetcher, result) := s.cache.accessOver s.prefetcher peer s.below req
  ({ cache := r.cache, prefetcher, below := r.below }, result)

/-- `issue`, with the new request's id. -/
def issue (s : Served β.toBelow) (peer : Option Cache) (req : MemReq) :
    Served β.toBelow × Option Nat :=
  let (r, prefetcher, id) := s.cache.issueOver s.prefetcher peer s.below req
  ({ cache := r.cache, prefetcher, below := r.below }, id)

end Served

end Memory
