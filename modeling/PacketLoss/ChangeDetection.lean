import PacketLoss.Divergence
import PacketLoss.TickSummary

/-!
Which ticks log a line. The code compares with the last line it logged; this comes
to comparing with the previous tick, because a tick without a line has its body.
-/
namespace PacketLoss.ChangeDetection

open Machine TickSummary Divergence

variable {F : Type} [Percent F]

/-- The ticks are numbered, and each has zones, with distinct names. -/
structure Numbered (ticks : ℕ → TickCounters F) : Prop where
  tick : ∀ t, 0 < t → (ticks t).tick = BitVec.ofNat 64 t
  zones : ∀ t, 0 < t → (ticks t).zones ≠ []
  names : ∀ t, 0 < t → ((ticks t).zones.map ZoneTick.zone).Nodup

/-- The same tick, with its zones in any order. -/
structure Reordered (c c' : TickCounters F) : Prop where
  tick : c.tick = c'.tick
  zones : c.zones.Perm c'.zones
  tcp : c.tcp = c'.tcp
  zoned : c.zoned = c'.zoned
  unknown : c.unknown = c'.unknown

section Runs

variable (S : SortSlice) (ticks : ℕ → TickCounters F)

/-- The state before the first tick. -/
def initial : SummaryState := ⟨"", 0#64⟩

def body (t : ℕ) : String := (formatTickSummary S (ticks t)).1

def Emits (t : ℕ) : Prop := (lineAt S initial ticks t).isSome

/-- `s` is the last tick before `t` at which a line was logged. -/
structure LastEmission (s t : ℕ) : Prop where
  before : s < t
  emits : Emits S ticks s
  silent : ∀ u, s < u → u < t → ¬Emits S ticks u

end Runs

variable {S : SortSlice} {ticks : ℕ → TickCounters F}

/-- A tick either logs a line and is remembered, or leaves what is remembered. -/
theorem emit_cases (S : SortSlice) (ticks : ℕ → TickCounters F) (t : ℕ) :
    (Emits S ticks (t + 1) ∧
        (body S ticks (t + 1) ≠ (stateAfter S initial ticks t).prevBody ∨
          ¬(ticks (t + 1)).tick - (stateAfter S initial ticks t).lastEmitTick <
            summaryHeartbeatTicks) ∧
        stateAfter S initial ticks (t + 1) = ⟨body S ticks (t + 1), (ticks (t + 1)).tick⟩) ∨
      (¬Emits S ticks (t + 1) ∧
        body S ticks (t + 1) = (stateAfter S initial ticks t).prevBody ∧
        (ticks (t + 1)).tick - (stateAfter S initial ticks t).lastEmitTick <
          summaryHeartbeatTicks ∧
        stateAfter S initial ticks (t + 1) = stateAfter S initial ticks t) := by
  by_cases hkeep : body S ticks (t + 1) = (stateAfter S initial ticks t).prevBody ∧
      (ticks (t + 1)).tick - (stateAfter S initial ticks t).lastEmitTick < summaryHeartbeatTicks
  · right
    have hstep : emitTickSummary S (stateAfter S initial ticks t) (ticks (t + 1)) =
        (stateAfter S initial ticks t, none) := if_pos hkeep
    simp only [Emits, lineAt, stateAfter, hstep]
    exact ⟨by simp, hkeep.1, hkeep.2, trivial⟩
  · left
    obtain ⟨line, hstep⟩ : ∃ line, emitTickSummary S (stateAfter S initial ticks t)
        (ticks (t + 1)) = (⟨body S ticks (t + 1), (ticks (t + 1)).tick⟩, some line) :=
      ⟨_, if_neg hkeep⟩
    simp only [Emits, lineAt, stateAfter, hstep]
    refine ⟨rfl, ?_, trivial⟩
    tauto

theorem body_ne_empty (h : Numbered ticks) {t : ℕ} (hpos : 0 < t) : body S ticks t ≠ "" := by
  have hzones : S.slice ZoneTick.zone (ticks t).zones ≠ [] := by
    intro hnil
    have hperm := S.perm_slice ZoneTick.zone (ticks t).zones
    rw [hnil] at hperm
    exact h.zones t hpos hperm.nil_eq.symm
  obtain ⟨z, zs, hcons⟩ := List.exists_cons_of_ne_nil hzones
  have hequals : '=' ∈ (zoneBody z).toList := by
    unfold zoneBody
    split <;> simp
  obtain ⟨rest, hrest⟩ := exists_intercalate_cons " ".toList (zoneBody z).toList
    (zs.map fun z => (zoneBody z).toList)
  intro hempty
  have hlist := congrArg String.toList hempty
  simp only [body, formatTickSummary, hcons, String.toList_append, String.toList_intercalate,
    List.map_cons, List.map_map] at hlist
  have hmem : '=' ∈ (" ".toList.intercalate ((zoneBody z).toList ::
      zs.map (String.toList ∘ zoneBody)) ++ (warnings (ticks t)).toList) := by
    show '=' ∈ (" ".toList.intercalate ((zoneBody z).toList ::
      zs.map fun z => (zoneBody z).toList) ++ (warnings (ticks t)).toList)
    rw [hrest]
    simp [hequals]
  rw [hlist] at hmem
  simp at hmem

/-- The difference of tick numbers, up to a heartbeat. -/
theorem sub_lt_heartbeat_iff {s t : ℕ} (hle : s ≤ t) (hnear : t ≤ s + 30) :
    BitVec.ofNat 64 t - BitVec.ofNat 64 s < summaryHeartbeatTicks ↔ t < s + 30 := by
  obtain ⟨d, rfl⟩ := Nat.exists_eq_add_of_le hle
  have hd : d % 2 ^ 64 = d := Nat.mod_eq_of_lt (by omega)
  rw [BitVec.ofNat_add, BitVec.add_comm, BitVec.add_sub_cancel, BitVec.lt_def,
    BitVec.toNat_ofNat, hd]
  show d < 30 ↔ _
  omega

/-- What `emitTickSummary` remembers after tick `t`: the body of that tick, and a
line that was logged less than a heartbeat ago. -/
structure UpToDate (S : SortSlice) (ticks : ℕ → TickCounters F) (t : ℕ) : Prop where
  prevBody : (stateAfter S initial ticks t).prevBody = body S ticks t
  recent : ∃ s, LastEmission S ticks s (t + 1) ∧ t < s + 30 ∧
    (stateAfter S initial ticks t).lastEmitTick = BitVec.ofNat 64 s

theorem emits_one (h : Numbered ticks) : Emits S ticks 1 ∧
    stateAfter S initial ticks 1 = ⟨body S ticks 1, (ticks 1).tick⟩ := by
  rcases emit_cases S ticks 0 with ⟨hemits, -, hstate⟩ | ⟨-, hbody, -⟩
  · exact ⟨hemits, hstate⟩
  · exact absurd hbody (body_ne_empty h Nat.one_pos)

theorem upToDate_of_emits (h : Numbered ticks) {t : ℕ} (hpos : 0 < t) (hemits : Emits S ticks t)
    (hstate : stateAfter S initial ticks t = ⟨body S ticks t, (ticks t).tick⟩) :
    UpToDate S ticks t where
  prevBody := by rw [hstate]
  recent := by
    refine ⟨t, ⟨Nat.lt_succ_self t, hemits, fun u hafter hbefore => ?_⟩, by omega, ?_⟩
    · omega
    · rw [hstate]
      exact h.tick t hpos

theorem upToDate (h : Numbered ticks) {t : ℕ} (hpos : 0 < t) : UpToDate S ticks t := by
  induction t, hpos using Nat.le_induction with
  | base =>
    obtain ⟨hemits, hstate⟩ := emits_one (S := S) h
    exact upToDate_of_emits h Nat.one_pos hemits hstate
  | succ t hpos ih =>
    obtain ⟨hprev, s, hlast, hnear, htick⟩ := ih
    rcases emit_cases S ticks t with ⟨hemits, -, hstate⟩ | ⟨hsilent, hbody, hgap, hstate⟩
    · exact upToDate_of_emits h (Nat.succ_pos t) hemits hstate
    · have hbefore := hlast.before
      rw [h.tick (t + 1) (Nat.succ_pos t), htick,
        sub_lt_heartbeat_iff (by omega) (by omega)] at hgap
      refine ⟨?_, s, ⟨by omega, hlast.emits, fun u hafter hu => ?_⟩, hgap, ?_⟩
      · rw [hstate]
        exact hbody.symm
      · rcases Nat.lt_or_ge u (t + 1) with hold | hnew
        · exact hlast.silent u hafter hold
        · obtain rfl : u = t + 1 := by omega
          exact hsilent
      · rw [hstate]
        exact htick

theorem LastEmission.unique {s s' t : ℕ} (h : LastEmission S ticks s t)
    (h' : LastEmission S ticks s' t) : s = s' := by
  rcases Nat.lt_trichotomy s s' with hlt | heq | hgt
  · exact absurd h'.emits (h.silent s' hlt h'.before)
  · exact heq
  · exact absurd h.emits (h'.silent s hgt h.before)

theorem emits_iff (h : Numbered ticks) {t : ℕ} (hpos : 0 < t) :
    Emits S ticks t ↔ t = 1 ∨ body S ticks t ≠ body S ticks (t - 1) ∨
      ∃ s, LastEmission S ticks s t ∧ s + 30 ≤ t := by
  by_cases hone : t = 1
  · subst hone
    simp [(emits_one (S := S) h).1]
  · obtain ⟨u, rfl⟩ : ∃ u, t = u + 1 := ⟨t - 1, by omega⟩
    obtain ⟨hprev, s, hlast, hnear, htick⟩ := upToDate (S := S) h (show 0 < u by omega)
    have hcases := emit_cases S ticks u
    have hbefore := hlast.before
    rw [hprev, h.tick (u + 1) hpos, htick, sub_lt_heartbeat_iff (by omega) (by omega)] at hcases
    rw [Nat.add_sub_cancel]
    rcases hcases with ⟨hemits, hwhy, -⟩ | ⟨hsilent, hbody, hgap, -⟩
    · refine ⟨fun _ => Or.inr ?_, fun _ => hemits⟩
      rcases hwhy with hbody | hgap
      · exact Or.inl hbody
      · exact Or.inr ⟨s, hlast, by omega⟩
    · refine ⟨fun hemits => absurd hemits hsilent, fun hwhy => ?_⟩
      rcases hwhy with heq | hbody' | ⟨s', hlast', hgap'⟩
      · exact absurd heq hone
      · exact absurd hbody hbody'
      · rw [← hlast.unique hlast'] at hgap'
        omega

/-- The text of a tick does not depend on how its zones came or how they are sorted. -/
theorem formatTickSummary_eq (S S' : SortSlice) {c c' : TickCounters F} (h : Reordered c c')
    (hnames : (c.zones.map ZoneTick.zone).Nodup) :
    formatTickSummary S c = formatTickSummary S' c' := by
  have hwarnings : warnings c = warnings c' := by
    unfold warnings
    rw [h.tcp, h.zoned, h.unknown]
  unfold formatTickSummary
  rw [S.slice_eq_of_perm S' ZoneTick.zone h.zones hnames, hwarnings]

theorem lineAt_eq (S S' : SortSlice) {ticks ticks' : ℕ → TickCounters F} (h : Numbered ticks)
    (hreordered : ∀ t, 0 < t → Reordered (ticks t) (ticks' t)) (t : ℕ) :
    lineAt S initial ticks t = lineAt S' initial ticks' t ∧
      stateAfter S initial ticks t = stateAfter S' initial ticks' t := by
  induction t with
  | zero => exact ⟨rfl, rfl⟩
  | succ t ih =>
    obtain ⟨-, hstate⟩ := ih
    have hsame := hreordered (t + 1) (Nat.succ_pos t)
    have hformat := formatTickSummary_eq S S' hsame (h.names (t + 1) (Nat.succ_pos t))
    simp only [lineAt, stateAfter, emitTickSummary, hformat, hstate, hsame.tick, and_self]

/-- A line is logged at the first tick, where the body differs from that of the tick
before, and a heartbeat after the last line; the orders of the zones do not show;
and no heartbeat passes without a line. -/
theorem changes_detected (S : SortSlice) (ticks : ℕ → TickCounters F) (h : Numbered ticks) :
    (∀ t, 0 < t → (Emits S ticks t ↔ t = 1 ∨ body S ticks t ≠ body S ticks (t - 1) ∨
        ∃ s, LastEmission S ticks s t ∧ s + summaryHeartbeatTicks.toNat ≤ t)) ∧
      (∀ (S' : SortSlice) (ticks' : ℕ → TickCounters F),
        (∀ t, 0 < t → Reordered (ticks t) (ticks' t)) →
          ∀ t, 0 < t → formatTickSummary S (ticks t) = formatTickSummary S' (ticks' t) ∧
            lineAt S initial ticks t = lineAt S' initial ticks' t) ∧
      ∀ t, 0 < t → ∃ s, t ≤ s ∧ s < t + summaryHeartbeatTicks.toNat ∧ Emits S ticks s := by
  refine ⟨fun t hpos => emits_iff h hpos, ?_, ?_⟩
  · intro S' ticks' hreordered t hpos
    exact ⟨formatTickSummary_eq S S' (hreordered t hpos) (h.names t hpos),
      (lineAt_eq S S' h hreordered t).1⟩
  · intro t hpos
    obtain ⟨-, s, hlast, hnear, -⟩ := upToDate (S := S) h (show 0 < t + 29 by omega)
    have hbefore := hlast.before
    exact ⟨s, by omega, show s < t + 30 by omega, hlast.emits⟩

/-- The sample ticks, and the same with the zones the other way round. -/
def sampleTicks (t : ℕ) : TickCounters ℚ := sampleTick (BitVec.ofNat 64 t)

def reversedTicks (t : ℕ) : TickCounters ℚ :=
  { sampleTicks t with zones := (sampleTicks t).zones.reverse }

theorem changes_detected_sampleTicks :
    Emits stableSort sampleTicks 1 ∧ (∃ s, 2 ≤ s ∧ s < 32 ∧ Emits stableSort sampleTicks s) ∧
      ∀ t, 0 < t → lineAt stableSort initial sampleTicks t =
        lineAt stableSort initial reversedTicks t := by
  have hnumbered : Numbered sampleTicks := by
    refine ⟨fun t _ => rfl, fun t _ => ?_, fun t _ => ?_⟩
    · simp [sampleTicks, sampleTick]
    · simp [sampleTicks, sampleTick]
  obtain ⟨hemits, horders, hheartbeat⟩ := changes_detected stableSort sampleTicks hnumbered
  have hreordered : ∀ t, 0 < t → Reordered (sampleTicks t) (reversedTicks t) := fun t _ =>
    ⟨rfl, (List.reverse_perm _).symm, rfl, rfl, rfl⟩
  exact ⟨(hemits 1 Nat.one_pos).mpr (Or.inl rfl), hheartbeat 2 Nat.two_pos,
    fun t hpos => (horders stableSort reversedTicks hreordered t hpos).2⟩

end PacketLoss.ChangeDetection
