import PacketLoss.Machine
import Mathlib.Algebra.Order.Ring.Unbundled.Rat
import Mathlib.Data.List.Induction
import Mathlib.Data.List.Nodup
import Mathlib.Data.List.Sort
import Mathlib.Data.Rat.Floor
import Mathlib.Data.String.Basic

/-!
cmd/ebpf-packet-loss-exporter/logsummary.go: the summary line of a tick, which is
logged when its body changed and on a heartbeat.
-/
namespace PacketLoss.TickSummary

open Machine

/-- What the summary asks of a `float64`: whether it is `== 0`, and its `%.1f`. -/
class Percent (F : Type) where
  isZero : F → Bool
  fixed1 : F → String

/-- Numbers as they are, rounded to one decimal, to the even one of two nearest. -/
instance : Percent ℚ where
  isZero x := x = 0
  fixed1 x :=
    let tenths := ⌊10 * |x|⌋.toNat
    let rest := 10 * |x| - tenths
    let tenths := if rest < 1 / 2 ∨ rest = 1 / 2 ∧ tenths % 2 = 0 then tenths else tenths + 1
    (if x < 0 then "-" else "") ++ toString (tenths / 10) ++ "." ++ toString (tenths % 10)

structure ZoneTick (F : Type) where
  zone : String
  segments : U64
  retrans : U64
  loss : F
  ema : F

structure TickCounters (F : Type) where
  tick : U64
  zones : List (ZoneTick F)
  tcp : U64
  zoned : U64
  unknown : U64

/-- `sort.Slice` by a name: where it moves what depends on the names alone, and
items of one name may come in any order. -/
structure SortSlice where
  order : List String → List ℕ
  perm : ∀ names, (order names).Perm (List.range names.length)
  sorted : ∀ names, ((order names).map fun i => names.getD i "").Pairwise (· ≤ ·)

namespace SortSlice

variable {α β : Type} (S : SortSlice)

def slice (name : α → String) (items : List α) : List α :=
  (S.order (items.map name)).filterMap (items[·]?)

theorem slice_map (name : β → String) (f : α → β) (items : List α) :
    S.slice name (items.map f) = (S.slice (name ∘ f) items).map f := by
  unfold slice
  rw [List.map_map, List.map_filterMap]
  simp only [List.getElem?_map]

theorem slice_congr {name name' : α → String} {items : List α}
    (h : ∀ a ∈ items, name a = name' a) : S.slice name items = S.slice name' items := by
  unfold slice
  rw [List.map_congr_left h]

theorem filterMap_range_getElem? (items : List α) :
    (List.range items.length).filterMap (items[·]?) = items := by
  induction items using List.reverseRecOn with
  | nil => rfl
  | append_singleton items a ih =>
    have hold : (List.range items.length).filterMap ((items ++ [a])[·]?) =
        (List.range items.length).filterMap (items[·]?) := by
      apply List.filterMap_congr
      intro i hi
      exact List.getElem?_append_left (List.mem_range.mp hi)
    rw [List.length_append, List.length_singleton, List.range_succ, List.filterMap_append, hold, ih]
    simp

theorem perm_slice (name : α → String) (items : List α) : (S.slice name items).Perm items := by
  have hperm := (S.perm (items.map name)).filterMap (items[·]?)
  rwa [List.length_map, filterMap_range_getElem?] at hperm

theorem pairwise_slice (name : α → String) (items : List α) :
    ((S.slice name items).map name).Pairwise (· ≤ ·) := by
  have hnames : (S.slice name items).map name =
      (S.order (items.map name)).map fun i => (items.map name).getD i "" := by
    unfold slice
    rw [List.map_filterMap, List.filterMap_eq_map_iff_forall_eq_some]
    intro i hi
    have hlt := List.mem_range.mp ((S.perm (items.map name)).mem_iff.mp hi)
    rw [List.length_map] at hlt
    simp [List.getD_eq_getElem?_getD, hlt]
  rw [hnames]
  exact S.sorted _

/-- Items with distinct names come in one order, however they are handed over. -/
theorem slice_eq_of_perm (S' : SortSlice) (name : α → String) {items items' : List α}
    (hperm : items.Perm items') (hnodup : (items.map name).Nodup) :
    S.slice name items = S'.slice name items' := by
  have hinj := List.inj_on_of_nodup_map hnodup
  have hleft := S.perm_slice name items
  have hright := S'.perm_slice name items'
  have hsorted := List.pairwise_map.mp (S.pairwise_slice name items)
  have hsorted' := List.pairwise_map.mp (S'.pairwise_slice name items')
  apply List.Perm.eq_of_pairwise _ hsorted hsorted' (hleft.trans (hperm.trans hright.symm))
  intro a b ha hb hab hba
  exact hinj (hleft.mem_iff.mp ha) (hperm.mem_iff.mpr (hright.mem_iff.mp hb))
    (le_antisymm hab hba)

end SortSlice

/-- One that leaves items of one name in their order. -/
def stableSort : SortSlice where
  order names := (List.range names.length).insertionSort fun i j =>
    names.getD i "" ≤ names.getD j ""
  perm names := List.perm_insertionSort _ _
  sorted names := by
    have : Std.Total fun i j : ℕ => names.getD i "" ≤ names.getD j "" :=
      ⟨fun i j => le_total (names.getD i "") (names.getD j "")⟩
    have : IsTrans ℕ fun i j => names.getD i "" ≤ names.getD j "" :=
      ⟨fun i j k => le_trans⟩
    rw [List.pairwise_map]
    exact List.pairwise_insertionSort _ _

variable {F : Type} [Percent F] (S : SortSlice)

def ZoneTick.Idle (z : ZoneTick F) : Prop :=
  z.segments = 0#64 ∧ Percent.isZero z.loss ∧ Percent.isZero z.ema

instance (z : ZoneTick F) : Decidable z.Idle := inferInstanceAs (Decidable (_ ∧ _))

/-- What the body says of a zone. -/
def zoneBody (z : ZoneTick F) : String :=
  if z.Idle then z.zone ++ "=idle"
  else
    z.zone ++ "=loss" ++ Percent.fixed1 z.loss ++ "%/ema" ++ Percent.fixed1 z.ema ++ "%"

def zoneVolume (z : ZoneTick F) : String :=
  z.zone ++ ":" ++ toString z.segments.toNat ++ "/" ++ toString z.retrans.toNat

/-- What follows the zones in the body. -/
def warnings (c : TickCounters F) : String :=
  (if c.tcp = 0#64 ∧ c.zoned = 0#64 then " warn=no-tcp"
    else if 0#64 < c.tcp ∧ c.zoned = 0#64 then " warn=unzoned(check source_zone/subnets)"
    else "") ++
  if 0#64 < c.unknown then " unknown_zone_drops=" ++ toString c.unknown.toNat else ""

def formatTickSummary (c : TickCounters F) : String × String :=
  let zs := S.slice ZoneTick.zone c.zones
  (String.intercalate " " (zs.map zoneBody) ++ warnings c,
    String.intercalate " " (zs.map zoneVolume))

def summaryHeartbeatTicks : U64 := 30#64

/-- What `emitTickSummary` keeps from tick to tick. -/
structure SummaryState where
  prevBody : String
  lastEmitTick : U64
deriving DecidableEq

/-- The next state, and the line if one is logged. -/
def emitTickSummary (st : SummaryState) (c : TickCounters F) : SummaryState × Option String :=
  let (body, volume) := formatTickSummary S c
  if body = st.prevBody ∧ c.tick - st.lastEmitTick < summaryHeartbeatTicks then (st, none)
  else
    (⟨body, c.tick⟩,
      some ("tick " ++ toString c.tick.toNat ++ ": " ++ body ++ " seg/ret=" ++ volume))

/-- The state after `t` ticks. -/
def stateAfter (init : SummaryState) (ticks : ℕ → TickCounters F) : ℕ → SummaryState
  | 0 => init
  | t + 1 => (emitTickSummary S (stateAfter init ticks t) (ticks (t + 1))).1

/-- The line logged at tick `t`; the ticks are numbered from 1. -/
def lineAt (init : SummaryState) (ticks : ℕ → TickCounters F) : ℕ → Option String
  | 0 => none
  | t + 1 => (emitTickSummary S (stateAfter S init ticks t) (ticks (t + 1))).2

/-- The ticks of the test: zone `f` has losses and zone `c` is idle. -/
def sampleTick (tick : U64) : TickCounters ℚ where
  tick := tick
  zones := [⟨"f", 5818#64, 71#64, 66 / 100, 1 / 2⟩, ⟨"c", 0#64, 0#64, 0, 0⟩]
  tcp := 5818#64
  zoned := 5818#64
  unknown := 0#64

example : formatTickSummary stableSort (sampleTick 1#64) =
    ("c=idle f=loss0.7%/ema0.5%", "c:0/0 f:5818/71") := by decide +kernel

end PacketLoss.TickSummary
