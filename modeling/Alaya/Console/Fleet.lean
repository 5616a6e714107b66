import Alaya.Lib.Collect
import Alaya.Console.Effect

/-!
# What the metrics store says about the readers of the client store

Series are grouped by the stack and the instance their labels name.  An instance that is up is heard when
it exports every alert asked for; no alert is taken for none raised only where every such instance was
heard, and an alert raised anywhere stands.
-/

namespace Alaya.Console

open Std (TreeMap TreeSet)
open Collect

/-- One series of an instant vector; a value that is not finite is `none`. -/
structure Series where
  labels : List (String × String)
  value : Option ℚ
  deriving DecidableEq

namespace Series

def label (s : Series) (name : String) : Option String := s.labels.lookup name

/-- The instance of a series: its pod, or its scrape instance. -/
def instanceOf (s : Series) : Option String := (s.label "pod").or (s.label "instance")

/-- The stack of a series, by the store's name for it. -/
def stackOf (s : Series) : Option String :=
  match s.label "stack" with
  | some v => if v = "cloudflare" then some "cf" else if v.isEmpty then none else some v
  | none => none

/-- `stack/instance`, with a placeholder for what is missing. -/
def place (s : Series) : String :=
  s.stackOf.getD "(no stack)" ++ "/" ++ s.instanceOf.getD "(no instance)"

end Series

def restrictionsBehind : List String := ["restrictions_behind"]

/-- The alerts of a reader whose store is behind what it holds, or differs from it. -/
def storeAlerts : List String := ["store_behind", "store_edited"]

/-- What the six queries answer. -/
structure Metrics where
  up : Except String (List Series)
  sets : Except String (List Series)
  docs : Except String (List Series)
  alerts : Except String (List Series)
  unmatched : Except String (List Series)
  toml : Except String (List Series)

/-- The fleet as the metrics store shows it: the instances of each stack, and the signals raised. -/
structure Fleet where
  byStack : Except String (TreeMap String (List Instance))
  behind : Except String (TreeSet String)
  storeAlerts : Except String (TreeSet String)
  unmatched : Except String (TreeMap String (TreeSet String))
  toml : Except String (TreeMap String (TreeSet String))

namespace Fleet

/-- The alert series raised now with one of the names. -/
def raised (alerts : List Series) (names : List String) : List Series :=
  alerts.filter fun s => s.value = some 1 && (s.label "alert").any fun a => a ∈ names

/-- Whether the alert read shows the alerts of every instance that is up. -/
def heard (up alerts : List Series) (names : List String) : Except String Unit :=
  let live := TreeSet.ofList ((up.filter fun s => s.value = some 1).map Series.place)
  if live.isEmpty then .error "the metrics store shows no reader that is up"
  else
    let exporting := collect (fun s : Series => (s.label "alert").map fun name => (s.place, name)) alerts
    let silent := live.toList.filter fun i =>
      !names.all fun n => exporting[i]?.any fun h => h.contains n
    if silent.isEmpty then .ok ()
    else
      .error ("readers that are up export no " ++ " or ".intercalate names ++ " series (" ++
        clip (", ".intercalate silent) 300 ++ "), so they cannot be read")

/-- A raised alert stands; none raised stands only where every instance was heard. -/
def signal (raised : Except String (TreeSet String)) (heard : Except String Unit) :
    Except String (TreeSet String) :=
  match raised with
  | .ok r => if r.isEmpty then heard.map fun _ => r else .ok r
  | .error e => .error e

/-- `label` values, with the stacks of the series that carry them. -/
def byLabel (series : List Series) (label : String) : TreeMap String (TreeSet String) :=
  collect (fun s => (s.label label).map fun value => (value, s.stackOf.getD s.place)) series

/-- The instances of a stack by id, while the series are counted. -/
abbrev ByStack := TreeMap String (TreeMap String Instance)

/-- Change an instance of a stack; nothing happens to one that is not listed. -/
def modifyAt (m : ByStack) (s : Series) (f : Instance → Instance) : ByStack :=
  match s.stackOf, s.instanceOf with
  | some stack, some id => m.modify stack fun instances => instances.modify id f
  | _, _ => m

/-- An `up` series lists its instance, which is up only if all its scrapes are. -/
def listUp (docs : Except String (List Series)) (behind : TreeSet String) (m : ByStack) (s : Series) :
    ByStack :=
  match s.stackOf, s.instanceOf with
  | some stack, some id =>
    m.alter stack fun instances => some ((instances.getD ∅).alter id fun known =>
      let inst := known.getD ⟨id, true, [], behind.contains (stack ++ "/" ++ id), docs.map fun _ => []⟩
      some { inst with up := inst.up && s.value = some 1 })
  | _, _ => m

def pushSetHash (s : Series) (inst : Instance) : Instance :=
  { inst with setHashes := inst.setHashes ++ [(s.label "set_hash").getD ""] }

def pushDigest (s : Series) (inst : Instance) : Instance :=
  { inst with docDigests := inst.docDigests.map fun digests => digests ++ [(s.label "digest").getD ""] }

/-- The instances `up` lists, with the restrictions and document series counted raw. -/
def counted (up sets : List Series) (docs : Except String (List Series)) (behind : TreeSet String) : ByStack :=
  let listed := up.foldl (listUp docs behind) ∅
  let withSets := sets.foldl (fun m s => modifyAt m s (pushSetHash s)) listed
  (docs.toOption.getD []).foldl (fun m s => modifyAt m s (pushDigest s)) withSets

/-- Instances per stack, from the `up` series; a reader series that cannot be placed is an error. -/
def instances (up sets : List Series) (docs : Except String (List Series)) (behind : TreeSet String) :
    Except String (TreeMap String (List Instance)) :=
  let unplaced := TreeSet.ofList
    (((up ++ sets ++ docs.toOption.getD []).filter fun s => s.stackOf.isNone || s.instanceOf.isNone).map Series.place)
  if !unplaced.isEmpty then
    .error ("reader series the console cannot place in a stack (" ++ ", ".intercalate unplaced.toList ++
      "), so their stack cannot be told")
  else
    .ok ((counted up sets docs behind).map fun _ instances => instances.toList.map Prod.snd)

def read (m : Metrics) : Fleet :=
  let behind := m.alerts.map fun a => TreeSet.ofList ((raised a restrictionsBehind).map Series.place)
  let alerts := m.alerts.map fun a => TreeSet.ofList ((raised a Console.storeAlerts).map fun s =>
    s.place ++ " (" ++ (s.label "alert").getD "" ++ ")")
  let heardOf (names : List String) : Except String Unit := do heard (← m.up) (← m.alerts) names
  { byStack := do instances (← m.up) (← m.sets) m.docs (← behind)
    behind := signal behind (heardOf restrictionsBehind)
    storeAlerts := signal alerts (heardOf Console.storeAlerts)
    unmatched := m.unmatched.map fun s => byLabel s "name"
    toml := m.toml.map fun s => byLabel s "client" }

/-- The version and the digest of a document that was installed. -/
def installOf (s : Series) : Option (ℕ × String) :=
  match (s.label "version").bind parseUnsigned, (s.label "digest").filter isHex64 with
  | some v, some d => some (v, d)
  | _, _ => none

/-- Every version that was installed, with its digests. -/
def installed (answer : Except String (List Series)) : Except String (TreeMap ℕ (TreeSet String)) :=
  answer.map (collect installOf)

/-! ### What a signal stands for -/

/-- At least one reader is up, and every reader that is up exports every alert asked for. -/
def Heard (up alerts : List Series) (names : List String) : Prop :=
  (∃ s ∈ up, s.value = some 1) ∧
    ∀ s ∈ up, s.value = some 1 → ∀ n ∈ names, ∃ a ∈ alerts, a.place = s.place ∧ a.label "alert" = some n

/-- The alert is raised with one of the names. -/
def Raised (names : List String) (a : Series) : Prop :=
  a.value = some 1 ∧ ∃ n ∈ names, a.label "alert" = some n

theorem mem_raised {alerts : List Series} {names : List String} {a : Series} :
    a ∈ raised alerts names ↔ a ∈ alerts ∧ Raised names a := by
  unfold raised Raised
  rw [List.mem_filter]
  cases hl : a.label "alert" with
  | none => simp
  | some n => simp

/-- An instance exports an alert exactly when some alert series of its place carries the name. -/
theorem exporting_contains (alerts : List Series) (i n : String) :
    ((collect (fun s : Series => (s.label "alert").map fun name => (s.place, name)) alerts)[i]?.any
      fun h => h.contains n) = true ↔ ∃ a ∈ alerts, a.place = i ∧ a.label "alert" = some n := by
  have hfiled := mem_filed (fun s : Series => (s.label "alert").map fun name => (s.place, name)) alerts i n
  have hany : ∀ m : TreeMap String (TreeSet String),
      (m[i]?.any fun h => h.contains n) = true ↔ n ∈ filed m i := by
    intro m
    unfold filed
    cases m[i]? <;> simp
  rw [hany, hfiled]
  constructor
  · rintro ⟨a, ha, hf⟩
    obtain ⟨name, hname, heq⟩ := Option.map_eq_some_iff.mp hf
    obtain ⟨hplace, rfl⟩ := Prod.mk.inj heq
    exact ⟨a, ha, hplace, hname⟩
  · rintro ⟨a, ha, hplace, hname⟩
    exact ⟨a, ha, by rw [hname, ← hplace]; rfl⟩

theorem mem_live {up : List Series} {i : String} :
    i ∈ TreeSet.ofList ((up.filter fun s => s.value = some 1).map Series.place) ↔
      ∃ s ∈ up, s.value = some 1 ∧ s.place = i := by
  simp [TreeSet.mem_ofList, and_assoc]

theorem heard_iff (up alerts : List Series) (names : List String) :
    heard up alerts names = .ok () ↔ Heard up alerts names := by
  unfold heard Heard
  dsimp only
  split
  · rename_i hlive
    have hnone := TreeSet.isEmpty_iff_forall_not_mem.mp hlive
    constructor
    · exact nofun
    · rintro ⟨⟨s, hs, hup⟩, -⟩
      exact absurd (mem_live.mpr ⟨s, hs, hup, rfl⟩) (hnone _)
  · rename_i hlive
    obtain ⟨i, hi⟩ := TreeSet.isEmpty_eq_false_iff_exists_mem.mp (Bool.eq_false_iff.mpr hlive)
    obtain ⟨s₀, hs₀, hup₀, -⟩ := mem_live.mp hi
    split
    · rename_i hsilent
      refine ⟨fun _ => ⟨⟨s₀, hs₀, hup₀⟩, fun s hs hup n hn => ?_⟩, fun _ => rfl⟩
      rw [List.isEmpty_iff, List.filter_eq_nil_iff] at hsilent
      have hall := hsilent s.place (TreeSet.mem_toList.mpr (mem_live.mpr ⟨s, hs, hup, rfl⟩))
      simp only [Bool.not_eq_true', Bool.not_eq_false] at hall
      exact (exporting_contains alerts s.place n).mp (List.all_eq_true.mp hall n hn)
    · rename_i hsilent
      refine ⟨nofun, fun h => absurd ?_ hsilent⟩
      rw [List.isEmpty_iff, List.filter_eq_nil_iff]
      intro i hi
      obtain ⟨s, hs, hup, rfl⟩ := mem_live.mp (TreeSet.mem_toList.mp hi)
      simp only [Bool.not_eq_true', Bool.not_eq_false, List.all_eq_true]
      exact fun n hn => (exporting_contains alerts s.place n).mpr (h.2 s hs hup n hn)

/-- The `up` and alert reads were answered, every reader that is up was heard, and none raises a store
alert. -/
def Quiet (m : Metrics) : Prop :=
  ∃ up alerts, m.up = .ok up ∧ m.alerts = .ok alerts ∧ Heard up alerts Console.storeAlerts ∧
    ∀ a ∈ alerts, ¬Raised Console.storeAlerts a

/-- How a raised alert is named. -/
def nameOf (a : Series) : String := a.place ++ " (" ++ (a.label "alert").getD "" ++ ")"

theorem read_storeAlerts_of_alerts {m : Metrics} {alerts : List Series} (h : m.alerts = .ok alerts) :
    (read m).storeAlerts =
      signal (.ok (TreeSet.ofList ((raised alerts Console.storeAlerts).map nameOf)))
        (m.up >>= fun up => heard up alerts Console.storeAlerts) := by
  unfold read
  simp only [h]
  cases m.up <;> rfl

/-- A raised alert stands, placed or not, whatever the other reads answer. -/
theorem storeAlerts_of_raised {m : Metrics} {alerts : List Series} (h : m.alerts = .ok alerts) {a : Series}
    (ha : a ∈ alerts) (hraised : Raised Console.storeAlerts a) :
    ∃ r, (read m).storeAlerts = .ok r ∧ nameOf a ∈ r := by
  have hmem : nameOf a ∈ TreeSet.ofList ((raised alerts Console.storeAlerts).map nameOf) :=
    TreeSet.mem_ofList.mpr (by simpa using ⟨a, mem_raised.mpr ⟨ha, hraised⟩, rfl⟩)
  refine ⟨_, ?_, hmem⟩
  rw [read_storeAlerts_of_alerts h, signal, if_neg]
  intro hempty
  exact TreeSet.isEmpty_iff_forall_not_mem.mp hempty _ hmem

/-- No alert is taken for none raised only where every reader was heard. -/
theorem storeAlerts_quiet_iff (m : Metrics) :
    (∃ r, (read m).storeAlerts = .ok r ∧ r.isEmpty = true) ↔ Quiet m := by
  cases halerts : m.alerts with
  | error e =>
    have herr : (read m).storeAlerts = .error e := by
      unfold read
      simp only [halerts]
      rfl
    simp [herr, Quiet, halerts]
  | ok alerts =>
    have hread := read_storeAlerts_of_alerts halerts
    constructor
    · rintro ⟨r, hr, hempty⟩
      have hnone : ∀ a ∈ alerts, ¬Raised Console.storeAlerts a := by
        intro a ha hraised
        obtain ⟨r', hr', hmem⟩ := storeAlerts_of_raised halerts ha hraised
        rw [hr] at hr'
        cases hr'
        exact TreeSet.isEmpty_iff_forall_not_mem.mp hempty _ hmem
      have hraised : raised alerts Console.storeAlerts = [] :=
        List.eq_nil_iff_forall_not_mem.mpr fun a ha => hnone a (mem_raised.mp ha).1 (mem_raised.mp ha).2
      rw [hr, hraised] at hread
      cases hup : m.up with
      | error e => rw [hup] at hread; cases hread
      | ok up =>
        rw [hup] at hread
        cases hheard : heard up alerts Console.storeAlerts with
        | error e =>
          have hbind : (Except.ok up >>= fun up => heard up alerts Console.storeAlerts) = .error e := hheard
          rw [hbind] at hread
          cases hread
        | ok u => exact ⟨up, alerts, hup, halerts, (heard_iff up alerts _).mp hheard, hnone⟩
    · rintro ⟨up, alerts', hup, halerts', hheard, hnone⟩
      obtain rfl : alerts = alerts' := Except.ok.inj (halerts.symm.trans halerts')
      have hraised : raised alerts Console.storeAlerts = [] :=
        List.eq_nil_iff_forall_not_mem.mpr fun a ha => hnone a (mem_raised.mp ha).1 (mem_raised.mp ha).2
      refine ⟨∅, ?_, by rfl⟩
      have hbind : (m.up >>= fun up => heard up alerts Console.storeAlerts) = .ok () := by
        rw [hup]
        exact (heard_iff up alerts _).mpr hheard
      rw [hread, hraised, hbind]
      rfl

/-! ### The instances listed -/

/-- The series belongs to the instance of the stack. -/
abbrev PlacedAt (stack id : String) (s : Series) : Prop := s.stackOf = some stack ∧ s.instanceOf = some id

/-- An instance as its first series lists it. -/
def fresh (docs : Except String (List Series)) (behind : TreeSet String) (stack id : String) : Instance :=
  ⟨id, true, [], behind.contains (stack ++ "/" ++ id), docs.map fun _ => []⟩

/-- An instance as the series placed at it show it. -/
def shown (up sets : List Series) (docs : Except String (List Series)) (behind : TreeSet String)
    (stack id : String) : Instance where
  id := id
  up := (up.filter (PlacedAt stack id)).all fun s => s.value = some 1
  setHashes := (sets.filter (PlacedAt stack id)).map fun s => (s.label "set_hash").getD ""
  behind := behind.contains (stack ++ "/" ++ id)
  docDigests := docs.map fun d => (d.filter (PlacedAt stack id)).map fun s => (s.label "digest").getD ""

end Fleet

end Alaya.Console
