/-
The account of a queue: *balanced* when the items let in are, in order, those that left and those
still queued.
-/
import Mathlib.Data.List.Basic

namespace SovereignConfig.Lib

open List Function

/-- The account of a queue of `α` that items leave by one of the fates `φ`. -/
structure Ledger (α φ : Type) where
  /-- every item that came, in order, with whether it was let in -/
  arrived : List (α × Bool)
  /-- every item that left the queue, in order, with how -/
  departed : List (φ × α)

namespace Ledger

variable {α φ : Type} {ledger : Ledger α φ} {queue items : List α}

def empty : Ledger α φ := ⟨[], []⟩

def enter (self : Ledger α φ) (item : α) : Ledger α φ :=
  { self with arrived := self.arrived ++ [(item, true)] }

def refuse (self : Ledger α φ) (item : α) : Ledger α φ :=
  { self with arrived := self.arrived ++ [(item, false)] }

def depart (self : Ledger α φ) (fate : φ) (items : List α) : Ledger α φ :=
  { self with departed := self.departed ++ items.map (fate, ·) }

def entered (self : Ledger α φ) : List α := (self.arrived.filter (·.2)).map (·.1)

def refused (self : Ledger α φ) : List α := (self.arrived.filter (!·.2)).map (·.1)

def by_fate [DecidableEq φ] (self : Ledger α φ) (fate : φ) : List α :=
  (self.departed.filter (·.1 = fate)).map (·.2)

def Balanced (self : Ledger α φ) (queue : List α) : Prop :=
  self.entered = self.departed.map (·.2) ++ queue

@[simp]
theorem arrived_depart (fate : φ) (items : List α) :
    (ledger.depart fate items).arrived = ledger.arrived := rfl

theorem refused_enter (item : α) : (ledger.enter item).refused = ledger.refused := by
  simp [refused, enter]

theorem refused_refuse (item : α) : (ledger.refuse item).refused = ledger.refused ++ [item] := by
  simp [refused, refuse]

theorem refused_depart (fate : φ) (items : List α) :
    (ledger.depart fate items).refused = ledger.refused := rfl

theorem by_fate_depart [DecidableEq φ] (fate other : φ) (items : List α) :
    (ledger.depart fate items).by_fate other
      = ledger.by_fate other ++ if fate = other then items else [] := by
  by_cases h : fate = other
  · simp [by_fate, depart, filter_map, h, comp_def]
  · simp [by_fate, depart, filter_map, h, comp_def]

theorem balanced_empty : (empty : Ledger α φ).Balanced [] := rfl

theorem Balanced.enter (h : ledger.Balanced queue) (item : α) :
    (ledger.enter item).Balanced (queue ++ [item]) := by
  have hent : (ledger.enter item).entered = ledger.entered ++ [item] := by
    simp [entered, Ledger.enter]
  rw [Balanced, hent, h, append_assoc]
  rfl

theorem Balanced.refuse (h : ledger.Balanced queue) (item : α) :
    (ledger.refuse item).Balanced queue := by
  simpa [Balanced, entered, Ledger.refuse] using h

theorem Balanced.depart (h : ledger.Balanced (items ++ queue)) (fate : φ) :
    (ledger.depart fate items).Balanced queue := by
  have hsec : (items.map (fate, ·)).map (·.2) = items := by
    simp [comp_def]
  unfold Balanced at h ⊢
  rw [Ledger.depart, map_append, hsec, append_assoc]
  exact h

end Ledger

def gone {α : Type} (before after : List α) : List α := before.take (before.length - after.length)

theorem gone_append {α : Type} (front after : List α) : gone (front ++ after) after = front := by
  simp [gone]

end SovereignConfig.Lib
