import Connaxis.Ktls.Enable

namespace Connaxis.TlsSessionTicket

open Ktls List

/-- `defaultTLSSessionTicketRotationSec`: a day. -/
def rotationSec : Int := 24 * 60 * 60

/-- The windows whose keys a server has, its own first. It has the next one's as well, for the
tickets of a server that has rotated already. -/
def keyOffsets : List Int := [0, 1, -1, -2, -3, -4, -5, -6, -7]

structure EvConfig where
  ticketsDisabled : Bool
  ticketSeed : Bytes
  ticketContext : Bytes

def hasManagedKeys (cfg : EvConfig) : Bool := !cfg.ticketsDisabled && cfg.ticketSeed ≠ []

def windowStartSec (now : Int) : Int := now.tdiv rotationSec * rotationSec

variable (C : Crypto) (cfg : EvConfig)

def deriveKey (sec : Int) : FixedBytes 32 :=
  copyTo (zeros 32) (C.hmac .sha256 cfg.ticketSeed
    (Crypto.ascii "connaxis/tls-session-ticket/v1" ++ [0] ++ cfg.ticketContext ++
      (seqBytes (.ofInt sec)).toList))

def buildKeys (currentSec : Int) : List (FixedBytes 32) :=
  keyOffsets.map fun offset => deriveKey C cfg (currentSec + offset * rotationSec)

/-- What a server has set. It seals new tickets with the first key and opens them with any. -/
structure Rotation where
  currentSec : Int
  keys : List (FixedBytes 32)

def setKeys (now : Int) : Rotation :=
  ⟨windowStartSec now, buildKeys C cfg (windowStartSec now)⟩

/-- The goroutine looks at the clock once a second. -/
def tick (r : Rotation) (now : Int) : Rotation :=
  if now - r.currentSec < rotationSec then r else setKeys C cfg now

/-- `startTLSSessionTicketRotation`, and the ticks that its goroutine has seen since. -/
def startRotation (start : Int) (ticks : List Int) : Option Rotation :=
  if hasManagedKeys cfg then some (ticks.foldl (tick C cfg) (setKeys C cfg start)) else none

theorem windowStartSec_nonneg {now : Int} (nonneg : 0 ≤ now) :
    windowStartSec now = now / 86400 * 86400 := by
  rw [windowStartSec, Int.tdiv_eq_ediv_of_nonneg nonneg]
  rfl

/-- A tick that keeps the keys has not left their window. -/
theorem tick_setKeys {before now : Int} (nonneg : 0 ≤ before) (later : before ≤ now) :
    tick C cfg (setKeys C cfg before) now = setKeys C cfg now := by
  unfold tick
  split
  · rename_i within
    have same : windowStartSec before = windowStartSec now := by
      simp only [setKeys, rotationSec, windowStartSec_nonneg nonneg] at within
      rw [windowStartSec_nonneg nonneg, windowStartSec_nonneg (by omega)]
      omega
    rw [setKeys, setKeys, same]
  · rfl

theorem ticks_setKeys {start : Int} {ticks : List Int} (nonneg : 0 ≤ start)
    (forward : (start :: ticks).IsChain (· ≤ ·)) :
    ticks.foldl (tick C cfg) (setKeys C cfg start) = setKeys C cfg (ticks.getLastD start) ∧
      0 ≤ ticks.getLastD start := by
  induction ticks generalizing start with
  | nil => exact ⟨rfl, nonneg⟩
  | cons now rest ih =>
    obtain ⟨later, onward⟩ := isChain_cons_cons.mp forward
    rw [foldl_cons, tick_setKeys C cfg nonneg later, getLastD_cons]
    exact ih (by omega) onward

/-- Servers of one configuration resume each other's sessions: what the one seals tickets with
is known to any other whose clock is up to a day behind, or up to seven days ahead. -/
theorem tickets_resume (C : Crypto) (cfg : EvConfig) (start start' : Int)
    (ticks ticks' : List Int) (managed : hasManagedKeys cfg = true)
    (nonneg : 0 ≤ start) (nonneg' : 0 ≤ start')
    (forward : (start :: ticks).IsChain (· ≤ ·)) (forward' : (start' :: ticks').IsChain (· ≤ ·))
    (behind : ticks.getLastD start - 86400 ≤ ticks'.getLastD start')
    (ahead : ticks'.getLastD start' ≤ ticks.getLastD start + 7 * 86400) :
    ∃ r r' key, startRotation C cfg start ticks = some r ∧
      startRotation C cfg start' ticks' = some r' ∧ r.keys.head? = some key ∧ key ∈ r'.keys := by
  obtain ⟨here, now⟩ := ticks_setKeys C cfg nonneg forward
  obtain ⟨there, now'⟩ := ticks_setKeys C cfg nonneg' forward'
  simp only [startRotation, managed, if_true, here, there]
  refine ⟨_, _, _, rfl, rfl, rfl, mem_map.mpr
    ⟨ticks.getLastD start / 86400 - ticks'.getLastD start' / 86400, ?_, ?_⟩⟩
  · simp only [keyOffsets, mem_cons, not_mem_nil, or_false]
    omega
  · rw [windowStartSec_nonneg now, windowStartSec_nonneg now', rotationSec]
    congr 1
    omega

theorem tickets_resume_day_behind : ∃ r r' key,
    startRotation mixing ⟨false, [1], []⟩ 0 [100000] = some r ∧
      startRotation mixing ⟨false, [1], []⟩ 20000 [] = some r' ∧
      r.keys.head? = some key ∧ key ∈ r'.keys :=
  tickets_resume _ _ 0 20000 [100000] [] rfl (by decide) (by decide) (by decide) (by decide)
    (by decide) (by decide)

end Connaxis.TlsSessionTicket
