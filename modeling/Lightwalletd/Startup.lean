/-
How a process comes up, `run` of `src/lib.rs`: from the cache file it finds to the
floor its ingestor starts at.

What is modelled is what becomes of the cache: the check when it is opened, the two
levers an operator has, the bootstrap from a snapshot peer and the resolution of the
floor.  A bootstrap is never fatal; it can be interrupted, and then the process ends.
`--nocache` works on a throwaway file and is left out.
-/
import Lightwalletd.Ingestor
import Lightwalletd.Snapshot.Import

namespace Lightwalletd

/-- The flags that startup reads. -/
structure StartupConfig where
  startHeight : Option Nat
  redownload : Bool
  syncFromHeight : Option Nat
  /-- The peer and the node, as the bootstrap finds them. -/
  snapshot : Option ImportEnv
  concurrency : Nat

inductive StartupError
  | chainName (chain : String)
  | cache (error : CacheError)
  deriving DecidableEq

/-- The chain name becomes part of a file name. -/
def validateChainName (chain : String) : Except StartupError Unit :=
  if chain.isEmpty ∨ !chain.toList.all (fun c => c.isAlphanum || c = '_' || c = '-') then
    .error (.chainName chain)
  else .ok ()

/-- Sapling activation, for the networks where it is fixed. -/
def localSaplingActivation (chain : String) : Option Nat :=
  if chain = "main" then some 419200
  else if chain = "test" then some 280000
  else none

/-- The floor when none is configured.  What the node says of the upgrade is only logged. -/
def defaultStartHeight (info : GetBlockchainInfo) : Nat :=
  (localSaplingActivation info.chain).getD 0

/-- Raise the floor to the base of an imported snapshot. -/
def effectiveStartHeight (configured : Nat) (snapshotBase : Option Nat) : Nat :=
  match snapshotBase with
  | some base => if base > configured then base else configured
  | none => configured

section

variable [Prost]

/-- The check of a cache that is opened: a corrupt suffix is dropped. -/
def checkOpened (cache : Cache) : Cache × Except CacheError Unit :=
  match cache.validateLight with
  | .ok () => (cache, .ok ())
  | .error _ =>
      match cache.lowestCorruptHeight with
      | none => (cache, .ok ())
      | some corrupt => cache.reorg (corrupt - 1)

/-- `--redownload` and `--sync-from-height`. -/
def pullLevers (config : StartupConfig) (cache : Cache) : Cache × Except CacheError Unit :=
  if config.redownload then cache.truncateFrom 0
  else
    match config.syncFromHeight with
    | some height => cache.truncateFrom height
    | none => (cache, .ok ())

variable [Sha256]

/-- The bootstrap, and whether it was interrupted. -/
def bootstrapFromSnapshot (config : StartupConfig) (cache : Cache) : Cache × Bool :=
  match config.snapshot with
  | none => (cache, false)
  | some env =>
      match importSnapshot env cache config.concurrency with
      | (cache, .returned _) => (cache, false)
      | (cache, .dropped) => (cache, true)

/-- Startup: what it leaves of the cache, and the floor if the process goes on. -/
def startup (config : StartupConfig) (info : GetBlockchainInfo) (cache : Cache) :
    Cache × Except StartupError (Option Nat) :=
  match validateChainName info.chain with
  | .error error => (cache, .error error)
  | .ok () =>
      let configured := config.startHeight.getD (defaultStartHeight info)
      match checkOpened cache with
      | (cache, .error error) => (cache, .error (.cache error))
      | (cache, .ok ()) =>
          match pullLevers config cache with
          | (cache, .error error) => (cache, .error (.cache error))
          | (cache, .ok ()) =>
              match bootstrapFromSnapshot config cache with
              | (cache, true) => (cache, .ok none)
              | (cache, false) =>
                  match cache.snapshotBaseHeight with
                  | .error error => (cache, .error (.cache error))
                  | .ok base => (cache, .ok (some (effectiveStartHeight configured base)))

end

end Lightwalletd
