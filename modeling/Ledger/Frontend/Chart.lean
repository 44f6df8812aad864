import Ledger.Text.Bytes
import Mathlib.Data.List.Sort
import Mathlib.Order.WithBot

/-! What a chart draws of the readings of a sensor. -/
namespace Ledger.Frontend
open Text

section Source
variable {N S : Type} [LinearOrder S]

inductive SensorValue (N : Type)
  | number (v : N)
  | vector (components : List N)
  | null

/-- A `Reading`, with what `toSeries` looks at. -/
structure ChartReading (N : Type) where
  sensorId : Bytes
  value : SensorValue N
  time : Bytes

/-- A `Series`, its data as the positions and the axes. An entry is `none` for `null`, a position
for `NaN`. -/
structure Series (S N : Type) where
  labels : List Bytes
  xs : List (Option S)
  ys : List (List (Option N))

/-- `a - b` is not positive; it is not if it is `NaN`. -/
def NotAfter (a b : Option S) : Prop :=
  ∀ x ∈ a, ∀ y ∈ b, x ≤ y

instance (a b : Option S) : Decidable (NotAfter a b) :=
  inferInstanceAs (Decidable (∀ x ∈ a, ∀ y ∈ b, x ≤ y))

def widen (width : ℕ) (p : ChartReading N) : ℕ :=
  match p.value with
  | .vector components => max width components.length
  | _ => width

def vectorWidth (points : List (ChartReading N)) : ℕ :=
  points.foldl widen 0

def axisName (i : ℕ) : Bytes :=
  ([ascii "x", ascii "y", ascii "z"][i]?).getD (ascii "axis " ++ decimal i)

def chartPoints (seconds : Bytes → Option S) (readings : List (ChartReading N)) (sensorId : Bytes) :
    List (ChartReading N) :=
  (readings.filter fun r => r.sensorId = sensorId).insertionSort fun a b =>
    NotAfter (seconds a.time) (seconds b.time)

def scalarEntry (p : ChartReading N) : Option N :=
  match p.value with
  | .number v => some v
  | _ => none

def axisEntry (axis : ℕ) (p : ChartReading N) : Option N :=
  match p.value with
  | .vector components => components[axis]?
  | _ => none

/-- `toSeries`; `seconds` is `Date.parse(iso) / 1000`. -/
def toSeries (seconds : Bytes → Option S) (readings : List (ChartReading N)) (sensorId : Bytes) :
    Series S N :=
  let points := chartPoints seconds readings sensorId
  let xs := points.map fun p => seconds p.time
  if vectorWidth points = 0 then
    ⟨[sensorId], xs, [points.map scalarEntry]⟩
  else
    let axes := (List.range (vectorWidth points)).map fun axis => points.map (axisEntry axis)
    ⟨(List.range axes.length).map axisName, xs, axes⟩

def Series.isEmpty (series : Series S N) : Bool :=
  series.xs.length = 0

def Series.hasAnyValue (series : Series S N) : Bool :=
  series.ys.any fun axis => axis.any Option.isSome

end Source

section Drawing
variable {N S : Type}

/-- What a value has for each axis. -/
def SensorValue.components : SensorValue N → List N
  | number v => [v]
  | vector components => components
  | null => []

variable [LinearOrder S]

/-- Every point has its place on every axis, with the component it has for the axis and a gap where
it has none, and only a point without a value is a gap on all of them. -/
structure DrawsPoints (seconds : Bytes → Option S) (points : List (ChartReading N))
    (series : Series S N) : Prop where
  positions : series.xs = points.map fun p => seconds p.time
  inOrder : series.xs.Pairwise NotAfter
  aligned : ∀ axis ∈ series.ys, axis.length = series.xs.length
  placed : ∀ (k : ℕ) (axis : List (Option N)), series.ys[k]? = some axis →
    axis = points.map fun p => p.value.components[k]?
  complete : ∀ p ∈ points, p.value.components.length ≤ series.ys.length
  gaps : ∀ (i : ℕ) (p : ChartReading N), points[i]? = some p →
    ((∀ axis ∈ series.ys, axis[i]? = some none) ↔ p.value = .null)

/-- The readings of the sensor are drawn, each of them once. -/
def Draws (seconds : Bytes → Option S) (readings : List (ChartReading N)) (sensorId : Bytes)
    (series : Series S N) : Prop :=
  ∃ points, points.Perm (readings.filter fun r => r.sensorId = sensorId) ∧
    DrawsPoints seconds points series

def SensorValue.IsScalar (value : SensorValue N) : Prop :=
  value = .null ∨ ∃ v, value = .number v

def SensorValue.IsVector (value : SensorValue N) : Prop :=
  value = .null ∨ ∃ v components, value = .vector (v :: components)

end Drawing

section Points
variable {N : Type} {points : List (ChartReading N)}

theorem le_foldl_widen (width : ℕ) : width ≤ points.foldl widen width := by
  induction points generalizing width with
  | nil => exact le_rfl
  | cons p points ih =>
    refine le_trans ?_ (ih (widen width p))
    unfold widen
    split
    · exact le_max_left ..
    · exact le_rfl

theorem le_vectorWidth {p : ChartReading N} (hp : p ∈ points) {components : List N}
    (h : p.value = .vector components) : components.length ≤ vectorWidth points := by
  obtain ⟨before, after, rfl⟩ := List.append_of_mem hp
  rw [vectorWidth, List.foldl_append, List.foldl_cons]
  refine le_trans ?_ (le_foldl_widen _)
  rw [widen, h]
  exact le_max_right ..

theorem vectorWidth_eq_zero (h : ∀ p ∈ points, ∀ components, p.value = .vector components →
    components = []) : vectorWidth points = 0 := by
  unfold vectorWidth
  induction points with
  | nil => rfl
  | cons p points ih =>
    have hp : widen 0 p = 0 := by
      unfold widen
      split
      · rename_i components hvalue
        rw [h p List.mem_cons_self components hvalue]
        rfl
      · rfl
    rw [List.foldl_cons, hp]
    exact ih fun q hq => h q (List.mem_cons_of_mem _ hq)

end Points

section Order
variable {N S : Type} [LinearOrder S] {seconds : Bytes → Option S}
  {readings : List (ChartReading N)} (sensorId : Bytes)

theorem chartPoints_perm (seconds : Bytes → Option S) (readings : List (ChartReading N))
    (sensorId : Bytes) : (chartPoints seconds readings sensorId).Perm
      (readings.filter fun r => r.sensorId = sensorId) :=
  List.perm_insertionSort _ _

/-- The position as an element of an order. -/
def position (seconds : Bytes → Option S) (r : ChartReading N) : WithBot S :=
  seconds r.time

theorem notAfter_iff {r s : ChartReading N} (hr : (seconds r.time).isSome)
    (hs : (seconds s.time).isSome) :
    NotAfter (seconds r.time) (seconds s.time) ↔ position seconds r ≤ position seconds s := by
  obtain ⟨x, hx⟩ := Option.isSome_iff_exists.mp hr
  obtain ⟨y, hy⟩ := Option.isSome_iff_exists.mp hs
  have hposition : position seconds r = (x : WithBot S) ∧ position seconds s = (y : WithBot S) :=
    ⟨hx, hy⟩
  rw [hposition.1, hposition.2, WithBot.coe_le_coe, hx, hy]
  constructor
  · exact fun h => h x rfl y rfl
  · rintro h _ ⟨⟩ _ ⟨⟩
    exact h

theorem chartPoints_pairwise (hparsed : ∀ r ∈ readings, (seconds r.time).isSome) :
    ((chartPoints seconds readings sensorId).map fun p => seconds p.time).Pairwise NotAfter := by
  have hsome : ∀ p ∈ chartPoints seconds readings sensorId, (seconds p.time).isSome := by
    intro p hp
    exact hparsed p (List.mem_of_mem_filter ((chartPoints_perm _ _ sensorId).mem_iff.mp hp))
  have hsorted : ((chartPoints seconds readings sensorId).map (position seconds)).Pairwise
      (· ≤ ·) := by
    rw [chartPoints, List.map_insertionSort _ (· ≤ ·) (position seconds)]
    · exact List.pairwise_insertionSort _ _
    · intro r hr s hs
      exact notAfter_iff (hparsed r (List.mem_of_mem_filter hr))
        (hparsed s (List.mem_of_mem_filter hs))
  rw [List.pairwise_map] at hsorted ⊢
  refine hsorted.imp_of_mem fun hr hs hle => ?_
  exact (notAfter_iff (hsome _ hr) (hsome _ hs)).mpr hle

end Order

section Chart
variable {N S : Type} [LinearOrder S] {seconds : Bytes → Option S}
  {readings : List (ChartReading N)} {sensorId : Bytes}

@[simp] theorem toSeries_xs : (toSeries seconds readings sensorId).xs =
    (chartPoints seconds readings sensorId).map fun p => seconds p.time := by
  unfold toSeries
  dsimp only
  split_ifs
  · rfl
  · rfl

theorem toSeries_ys_of_zero (h : vectorWidth (chartPoints seconds readings sensorId) = 0) :
    (toSeries seconds readings sensorId).ys =
      [(chartPoints seconds readings sensorId).map scalarEntry] := by
  unfold toSeries
  dsimp only
  rw [if_pos h]

theorem toSeries_ys_of_ne_zero (h : vectorWidth (chartPoints seconds readings sensorId) ≠ 0) :
    (toSeries seconds readings sensorId).ys =
      (List.range (vectorWidth (chartPoints seconds readings sensorId))).map fun axis =>
        (chartPoints seconds readings sensorId).map (axisEntry axis) := by
  unfold toSeries
  dsimp only
  rw [if_neg h]

/-- A point is a gap on every axis exactly if it has no value, as long as every value has a
component and every component a place. -/
theorem DrawsPoints.of_placed {points : List (ChartReading N)} {series : Series S N}
    (positions : series.xs = points.map fun p => seconds p.time)
    (inOrder : series.xs.Pairwise NotAfter)
    (placed : ∀ (k : ℕ) (axis : List (Option N)), series.ys[k]? = some axis →
      axis = points.map fun p => p.value.components[k]?)
    (complete : ∀ p ∈ points, p.value.components.length ≤ series.ys.length)
    (hvalue : ∀ p ∈ points, p.value.components = [] → p.value = .null) :
    DrawsPoints seconds points series where
  positions := positions
  inOrder := inOrder
  aligned := by
    intro axis haxis
    obtain ⟨k, hk⟩ := List.mem_iff_getElem?.mp haxis
    rw [placed k axis hk, positions, List.length_map, List.length_map]
  placed := placed
  complete := complete
  gaps := by
    intro i p hp
    have hentry : ∀ (k : ℕ) (axis : List (Option N)), series.ys[k]? = some axis →
        axis[i]? = some p.value.components[k]? := by
      intro k axis hk
      rw [placed k axis hk, List.getElem?_map, hp]
      rfl
    constructor
    · intro hgap
      apply hvalue p (List.mem_of_getElem? hp)
      by_contra hne
      have hpos : 0 < series.ys.length :=
        (List.length_pos_iff.mpr hne).trans_le (complete p (List.mem_of_getElem? hp))
      have hfirst := List.getElem?_eq_getElem hpos
      have hnone := hgap _ (List.getElem_mem hpos)
      rw [hentry 0 _ hfirst] at hnone
      have hlength := List.getElem?_eq_none_iff.mp (Option.some.inj hnone)
      exact hne (List.length_eq_zero_iff.mp (Nat.le_zero.mp hlength))
    · intro hnull axis haxis
      obtain ⟨k, hk⟩ := List.mem_iff_getElem?.mp haxis
      rw [hentry k axis hk, hnull]
      rfl

theorem isEmpty_toSeries_iff : (toSeries seconds readings sensorId).isEmpty = true ↔
    ∀ r ∈ readings, r.sensorId ≠ sensorId := by
  rw [Series.isEmpty, decide_eq_true_eq, toSeries_xs, List.length_map,
    (chartPoints_perm _ _ sensorId).length_eq, List.length_eq_zero_iff, List.filter_eq_nil_iff]
  simp

theorem DrawsPoints.hasAnyValue_iff {points : List (ChartReading N)} {series : Series S N}
    (h : DrawsPoints seconds points series) :
    series.hasAnyValue = true ↔ ∃ p ∈ points, p.value ≠ .null := by
  unfold Series.hasAnyValue
  simp only [List.any_eq_true]
  constructor
  · rintro ⟨axis, haxis, entry, hentry, hsome⟩
    obtain ⟨k, hk⟩ := List.mem_iff_getElem?.mp haxis
    rw [h.placed k axis hk] at hentry
    obtain ⟨p, hp, rfl⟩ := List.mem_map.mp hentry
    refine ⟨p, hp, fun hnull => ?_⟩
    rw [hnull] at hsome
    cases hsome
  · rintro ⟨p, hp, hvalue⟩
    obtain ⟨i, hi⟩ := List.mem_iff_getElem?.mp hp
    have hnot : ¬∀ axis ∈ series.ys, axis[i]? = some none := fun hgap =>
      hvalue ((h.gaps i p hi).mp hgap)
    push Not at hnot
    obtain ⟨axis, haxis, hne⟩ := hnot
    obtain ⟨k, hk⟩ := List.mem_iff_getElem?.mp haxis
    have hentry : axis[i]? = some p.value.components[k]? := by
      rw [h.placed k axis hk, List.getElem?_map, hi]
      rfl
    refine ⟨axis, haxis, _, List.mem_of_getElem? hentry, Option.ne_none_iff_isSome.mp ?_⟩
    intro hnone
    rw [hnone] at hentry
    exact hne hentry

theorem drawsPoints_of_scalar (hparsed : ∀ r ∈ readings, (seconds r.time).isSome)
    (h : ∀ p ∈ chartPoints seconds readings sensorId, p.value.IsScalar) :
    DrawsPoints seconds (chartPoints seconds readings sensorId)
      (toSeries seconds readings sensorId) := by
  have hwidth : vectorWidth (chartPoints seconds readings sensorId) = 0 := by
    apply vectorWidth_eq_zero
    intro p hp components hvalue
    rcases h p hp with hnull | ⟨v, hv⟩
    · rw [hvalue] at hnull
      cases hnull
    · rw [hvalue] at hv
      cases hv
  have hys := toSeries_ys_of_zero hwidth
  apply DrawsPoints.of_placed
  · exact toSeries_xs
  · rw [toSeries_xs]
    exact chartPoints_pairwise sensorId hparsed
  · intro k axis hk
    rw [hys] at hk
    cases k with
    | succ k => cases hk
    | zero =>
      rw [← Option.some.inj hk]
      apply List.map_congr_left
      intro p hp
      unfold scalarEntry
      rcases h p hp with hnull | ⟨v, hv⟩
      · rw [hnull]
        rfl
      · rw [hv]
        rfl
  · intro p hp
    rw [hys]
    rcases h p hp with hnull | ⟨v, hv⟩
    · rw [hnull]
      exact Nat.zero_le _
    · rw [hv]
      exact le_rfl
  · intro p hp hnone
    rcases h p hp with hnull | ⟨v, hv⟩
    · exact hnull
    · rw [hv] at hnone
      cases hnone

theorem drawsPoints_of_vector (hparsed : ∀ r ∈ readings, (seconds r.time).isSome)
    (hwidth : vectorWidth (chartPoints seconds readings sensorId) ≠ 0)
    (h : ∀ p ∈ chartPoints seconds readings sensorId, p.value.IsVector) :
    DrawsPoints seconds (chartPoints seconds readings sensorId)
      (toSeries seconds readings sensorId) := by
  have hys := toSeries_ys_of_ne_zero hwidth
  apply DrawsPoints.of_placed
  · exact toSeries_xs
  · rw [toSeries_xs]
    exact chartPoints_pairwise sensorId hparsed
  · intro k axis hk
    rw [hys, List.getElem?_map] at hk
    obtain ⟨axis', haxis', rfl⟩ := Option.map_eq_some_iff.mp hk
    obtain ⟨hlt, hget⟩ := List.getElem?_eq_some_iff.mp haxis'
    rw [List.getElem_range] at hget
    subst hget
    apply List.map_congr_left
    intro p hp
    unfold axisEntry
    rcases h p hp with hnull | ⟨v, components, hv⟩
    · rw [hnull]
      rfl
    · rw [hv]
      rfl
  · intro p hp
    rw [hys, List.length_map, List.length_range]
    rcases h p hp with hnull | ⟨v, components, hv⟩
    · rw [hnull]
      exact Nat.zero_le _
    · have hle := le_vectorWidth hp hv
      rw [hv]
      exact hle
  · intro p hp hnone
    rcases h p hp with hnull | ⟨v, components, hv⟩
    · exact hnull
    · rw [hv] at hnone
      cases hnone

theorem of_countP_eq {α : Type} {p q : α → Bool} {l : List α} (hpq : ∀ x, p x = true → q x = true)
    (h : l.countP p = l.countP q) : ∀ x ∈ l, q x = true → p x = true := by
  have hsub : (l.filter p).Sublist (l.filter q) := List.monotone_filter_right l hpq
  have heq : l.filter p = l.filter q := by
    apply hsub.eq_of_length
    rw [← List.countP_eq_length_filter, ← List.countP_eq_length_filter, h]
  intro x hx hqx
  have hmem : x ∈ l.filter p := by
    rw [heq]
    exact List.mem_filter.mpr ⟨hx, hqx⟩
  exact List.of_mem_filter hmem

theorem DrawsPoints.value_ne_empty {points : List (ChartReading N)} {series : Series S N}
    (h : DrawsPoints seconds points series) {p : ChartReading N} (hp : p ∈ points) :
    p.value ≠ .vector [] := by
  intro hvalue
  obtain ⟨i, hi⟩ := List.mem_iff_getElem?.mp hp
  have hgap : ∀ axis ∈ series.ys, axis[i]? = some none := by
    intro axis haxis
    obtain ⟨k, hk⟩ := List.mem_iff_getElem?.mp haxis
    rw [h.placed k axis hk, List.getElem?_map, hi, Option.map_some, hvalue]
    rfl
  have hnull := (h.gaps i p hi).mp hgap
  rw [hvalue] at hnull
  cases hnull

theorem DrawsPoints.value_ne_number {points : List (ChartReading N)}
    (h : DrawsPoints seconds points (toSeries seconds readings sensorId))
    (hperm : points.Perm (chartPoints seconds readings sensorId))
    (hwidth : vectorWidth (chartPoints seconds readings sensorId) ≠ 0) {p : ChartReading N}
    (hp : p ∈ chartPoints seconds readings sensorId) (v : N) : p.value ≠ .number v := by
  intro hvalue
  have hys := toSeries_ys_of_ne_zero hwidth
  have hfirst : (toSeries seconds readings sensorId).ys[0]? =
      some ((chartPoints seconds readings sensorId).map (axisEntry 0)) := by
    rw [hys, List.getElem?_map, List.getElem?_range (Nat.pos_of_ne_zero hwidth)]
    rfl
  have hcount : (chartPoints seconds readings sensorId).countP (fun q => (axisEntry 0 q).isSome) =
      (chartPoints seconds readings sensorId).countP fun q => q.value.components[0]?.isSome := by
    have hline := congrArg (List.countP Option.isSome) (h.placed 0 _ hfirst)
    rw [List.countP_map, List.countP_map] at hline
    exact hline.trans (hperm.countP_eq _)
  have hdrawn : ∀ q : ChartReading N, (axisEntry 0 q).isSome = true →
      q.value.components[0]?.isSome = true := by
    intro q hq
    unfold axisEntry at hq
    cases hv : q.value with
    | number w => rfl
    | vector components =>
      rw [hv] at hq
      exact hq
    | null =>
      rw [hv] at hq
      cases hq
  have hentry := of_countP_eq hdrawn hcount p hp
  rw [hvalue] at hentry
  have hsome := hentry rfl
  rw [axisEntry, hvalue] at hsome
  cases hsome

/-- A chart shows every reading of the sensor, and a gap on every line only where a read failed,
exactly if its values are all numbers, or all vectors with a component. -/
theorem chart_draws_iff (hparsed : ∀ r ∈ readings, (seconds r.time).isSome) :
    Draws seconds readings sensorId (toSeries seconds readings sensorId) ↔
      (∀ r ∈ readings, r.sensorId = sensorId → r.value.IsScalar) ∨
        ∀ r ∈ readings, r.sensorId = sensorId → r.value.IsVector := by
  have hperm := chartPoints_perm seconds readings sensorId
  have hmem (p : ChartReading N) : p ∈ chartPoints seconds readings sensorId ↔
      p ∈ readings ∧ p.sensorId = sensorId := by
    rw [hperm.mem_iff, List.mem_filter, decide_eq_true_eq]
  constructor
  · rintro ⟨points, hpoints, hdraws⟩
    have hsame := hpoints.trans hperm.symm
    by_cases hwidth : vectorWidth (chartPoints seconds readings sensorId) = 0
    · left
      intro r hr hsensor
      have hchart := (hmem r).mpr ⟨hr, hsensor⟩
      cases hvalue : r.value with
      | number v => exact Or.inr ⟨v, rfl⟩
      | null => exact Or.inl rfl
      | vector components =>
        have hle := le_vectorWidth hchart hvalue
        rw [hwidth] at hle
        rw [List.length_eq_zero_iff.mp (Nat.le_zero.mp hle)] at hvalue
        exact absurd hvalue (hdraws.value_ne_empty (hsame.mem_iff.mpr hchart))
    · right
      intro r hr hsensor
      have hchart := (hmem r).mpr ⟨hr, hsensor⟩
      cases hvalue : r.value with
      | number v => exact absurd hvalue (hdraws.value_ne_number hsame hwidth hchart v)
      | null => exact Or.inl rfl
      | vector components =>
        cases components with
        | nil => exact absurd hvalue (hdraws.value_ne_empty (hsame.mem_iff.mpr hchart))
        | cons v components => exact Or.inr ⟨v, components, rfl⟩
  · rintro (hscalar | hvector)
    · exact ⟨_, hperm, drawsPoints_of_scalar hparsed fun p hp =>
        hscalar p ((hmem p).mp hp).1 ((hmem p).mp hp).2⟩
    · have hpoint : ∀ p ∈ chartPoints seconds readings sensorId, p.value.IsVector := fun p hp =>
        hvector p ((hmem p).mp hp).1 ((hmem p).mp hp).2
      refine ⟨_, hperm, ?_⟩
      by_cases hwidth : vectorWidth (chartPoints seconds readings sensorId) = 0
      · apply drawsPoints_of_scalar hparsed
        intro p hp
        rcases hpoint p hp with hnull | ⟨v, components, hvalue⟩
        · exact Or.inl hnull
        · have hle := le_vectorWidth hp hvalue
          rw [hwidth] at hle
          cases hle
      · exact drawsPoints_of_vector hparsed hwidth hpoint

end Chart

def sampleReadings (first second : SensorValue ℕ) : List (ChartReading ℕ) :=
  [⟨ascii "acc-0", first, ascii "2026-09-07T12:00:02Z"⟩,
    ⟨ascii "acc-0", second, ascii "2026-09-07T12:00:01Z"⟩]

def sampleSeconds (iso : Bytes) : Option ℕ :=
  if iso = ascii "2026-09-07T12:00:02Z" then some 1788782402
  else if iso = ascii "2026-09-07T12:00:01Z" then some 1788782401
  else none

theorem sampleReadings_parsed (first second : SensorValue ℕ) :
    ∀ r ∈ sampleReadings first second, (sampleSeconds r.time).isSome := by
  intro r hr
  rcases List.mem_cons.mp hr with rfl | hr
  · exact show (sampleSeconds (ascii "2026-09-07T12:00:02Z")).isSome by decide
  · rw [List.mem_singleton.mp hr]
    exact show (sampleSeconds (ascii "2026-09-07T12:00:01Z")).isSome by decide

theorem chart_draws_iff_sample :
    let readings := sampleReadings (.vector [1, 2, 9]) .null
    Draws sampleSeconds readings (ascii "acc-0")
      (toSeries sampleSeconds readings (ascii "acc-0")) := by
  intro readings
  refine (chart_draws_iff (sampleReadings_parsed _ _)).mpr (Or.inr fun r hr _ => ?_)
  rcases List.mem_cons.mp hr with rfl | hr
  · exact Or.inr ⟨1, [2, 9], rfl⟩
  · rw [List.mem_singleton.mp hr]
    exact Or.inl rfl

/-- A sensor switches from a number to a vector, and the number is a gap. -/
theorem switch_leaves_gap :
    ¬∀ (readings : List (ChartReading ℕ)) (sensorId : Bytes),
      (∀ r ∈ readings, (sampleSeconds r.time).isSome) →
      Draws sampleSeconds readings sensorId (toSeries sampleSeconds readings sensorId) := by
  intro h
  obtain ⟨points, hperm, hdraws⟩ := h (sampleReadings (.vector [1, 2, 9]) (.number 4))
    (ascii "acc-0") (sampleReadings_parsed _ _)
  have hchart := chartPoints_perm sampleSeconds (sampleReadings (.vector [1, 2, 9]) (.number 4))
    (ascii "acc-0")
  have hwidth : vectorWidth (chartPoints sampleSeconds
      (sampleReadings (.vector [1, 2, 9]) (.number 4)) (ascii "acc-0")) ≠ 0 := by decide
  refine hdraws.value_ne_number (hperm.trans hchart.symm) hwidth
    (p := ⟨ascii "acc-0", .number 4, ascii "2026-09-07T12:00:01Z"⟩) ?_ 4 rfl
  rw [hchart.mem_iff]
  exact List.mem_filter.mpr ⟨by simp [sampleReadings], by decide⟩

end Ledger.Frontend
