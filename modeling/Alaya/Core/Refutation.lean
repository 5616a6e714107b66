import Alaya.Core.Chains
import Alaya.Lib.Among

/-!
# A refute among other writes

One refute runs while anything else happens to both stores, and its own calls may fail before or
after they took effect.  What it writes is read off its calls: it leaves every marked memory and every
reason alone.  What it reports is read off the answers it got: a status that claims a marker or a
reason was answered by a call that wrote or read it.
-/

namespace Alaya

open Json Interleave

/-! ### Stores that may fail -/

/-- A reply that does not say what its call did: an error, or an update that was not confirmed or
whose point was deleted meanwhile. -/
def Call.Unsure : (c : Call) → Reply c → Prop
  | _, .error _ => True
  | .vectors (.update ..), .ok u => ∀ p created, (show Updated from u).update ≠ .landed p created ∧
      (show Updated from u).update ≠ .skipped
  | _, .ok _ => False

/-- The stores answer a call, or nobody can say what it did: it took effect or it did not. -/
def Service.Serves (c : Call) (s : Service) (r : Reply c) (s' : Service) : Prop :=
  Service.serve c s = (r, s') ∨ c.Unsure r ∧ (s' = s ∨ s' = (Service.serve c s).2)

theorem Service.Serves.effect {c : Call} {s s' : Service} {r : Reply c} (h : s.Serves c r s') :
    s.Effect c s' := by
  rcases h with h | ⟨-, rfl | rfl⟩
  · obtain rfl := congrArg Prod.snd h
    exact Service.effect_of_serve c s
  · exact .quiet
  · exact Service.effect_of_serve c s

/-- What an update that says what it did was answered. -/
theorem Service.Serves.update {op : Op} {id : PointId} {s s' : Service} {u : Updated}
    (h : s.Serves (.vectors (.update op id)) (.ok u) s')
    (hu : u.update = .skipped ∨ ∃ p created, u.update = .landed p created) :
    s.update op id = (.ok u, s') := by
  rcases h with h | ⟨hunsure, -⟩
  · exact h
  · rcases hu with hu | ⟨p, created, hu⟩
    · exact absurd hu (hunsure [] false).2
    · exact absurd hu (hunsure p created).1

/-- A call that only asks. -/
def Call.Reads : Call → Prop
  | .query _ => True
  | .vectors (.getByHash _) | .vectors (.getBatch _) | .vectors (.existingHashes _) => True
  | _ => False

theorem Service.Effect.eq_of_reads {c : Call} {s s' : Service} (h : s.Effect c s') (hc : c.Reads) :
    s' = s := by
  cases h with
  | quiet => rfl
  | landed | deleted | graph | queued => exact hc.elim

/-! ### What a refute keeps -/

/-- A marked memory stays as it is, value for value, and so does the reason on a link. -/
structure Service.Keeps (s s' : Service) : Prop where
  marked : ∀ id p, s.points id = some p → p.marker.isSome → s'.points id = some p
  reason : ∀ a b link, s.graph.contradicts a b = some link → link.refuteReason.isSome →
    ∃ link', s'.graph.contradicts a b = some link' ∧ link'.refuteReason = link.refuteReason

/-- What was there stays as it is: a memory may be added, nothing else. -/
structure Service.Adds (s s' : Service) : Prop where
  kept : ∀ id p, s.points id = some p → s'.points id = some p
  graph : s'.graph = s.graph

theorem Service.Keeps.refl (s : Service) : s.Keeps s :=
  ⟨fun _ _ h _ => h, fun _ _ link h _ => ⟨link, h, rfl⟩⟩

/-- An insert never lands on a memory. -/
theorem not_land_insertOnly {params : StoreParams} {ctx : StoreContext} {mine : String}
    {p q : Payload} (h : (Op.store params ctx .insertOnly).land mine (some p) = some q) : False := by
  cases landing_of_land h with
  | merge hmerged =>
    cases hmerged with
    | accessed htime => cases htime

/-- A conditional supersession never lands on a marked memory. -/
theorem marker_of_land_supersedeIfLive {contentHash newHash reason mine : String} {p q : Payload}
    (h : (Op.supersedeIfLive contentHash newHash reason).land mine (some p) = some q) :
    p.marker = none := by
  cases landing_of_land h with
  | merge hmerged =>
    cases hmerged with
    | superseded hmd hlive => exact (get_of_storedMetadata hmd supersededByKey).symm.trans hlive
    | accessed htime => cases htime

theorem points_write_of_ne {s : Service} {op : Op} {id id' : PointId} {p : Payload} (h : id' ≠ id) :
    (s.write op id p).points id' = s.points id' := Function.update_of_ne h ..

section

variable {lib : Components} {contentHash : String} {refutation : Refutation} {s s' : Service}
  {c : Call}

/-- The reason on a link outlives every statement a refute sends. -/
theorem reason_exec {g : GraphCall} (hg : (Call.graph g).OfRefute lib contentHash refutation)
    {G : Graph} {a b : String} {link : Link} (hlink : G.contradicts a b = some link)
    (hreason : link.refuteReason.isSome) :
    ∃ link', (g.exec G).2.contradicts a b = some link' ∧ link'.refuteReason = link.refuteReason := by
  have hkept : (g.exec G).2.contradicts = G.contradicts → ∃ link',
      (g.exec G).2.contradicts a b = some link' ∧ link'.refuteReason = link.refuteReason :=
    fun h => ⟨link, by rw [h, hlink], rfl⟩
  cases g with
  | ensureNode hash => exact hkept rfl
  | createSystemEdge src dst => exact hkept (Graph.contradicts_createSystemEdge G)
  | createTypedEdge src dst rel ts confidence =>
    show ∃ link', (G.createTypedEdge src dst rel ts confidence).2.contradicts a b = some link' ∧ _
    rw [Graph.contradicts_createTypedEdge, hlink, Option.getD_some, ite_self]
    exact ⟨link, rfl, rfl⟩
  | linkRefutation src dst ts reason =>
    obtain ⟨stored, hstored⟩ := Option.isSome_iff_exists.mp hreason
    show ∃ link', (G.linkRefutation src dst ts reason).2.contradicts a b = some link' ∧ _
    rw [Graph.contradicts_linkRefutation, hlink, Option.getD_some]
    split
    · exact ⟨_, rfl, by rw [hstored, Option.getD_some]⟩
    · exact ⟨link, rfl, rfl⟩
  | _ => rcases hg with h | h <;> exact h.elim

theorem keeps_of_refute (hc : c.OfRefute lib contentHash refutation) (h : s.Effect c s') :
    s.Keeps s' := by
  cases h with
  | quiet => exact .refl s
  | @landed op id p hland =>
    refine ⟨fun id' q hq hmarker => ?_, fun _ _ link hlink _ => ⟨link, hlink, rfl⟩⟩
    by_cases hid : id' = id
    · subst hid
      rw [hq] at hland
      rcases hc with ⟨ctx, rfl, -⟩ | ⟨rfl, -⟩
      · exact (not_land_insertOnly hland).elim
      · rw [marker_of_land_supersedeIfLive hland] at hmarker
        cases hmarker
    · rw [points_write_of_ne hid, hq]
  | deleted => rcases hc with h | h <;> exact h.elim
  | graph => exact ⟨fun _ _ h _ => h, fun a b link => reason_exec hc⟩
  | queued => exact ⟨fun _ _ h _ => h, fun _ _ link h _ => ⟨link, h, rfl⟩⟩

end

/-! ### What a supersession was told -/

/-- The memory carries the marker of `newHash` and that reason. -/
def Service.MarkedBy (s : Service) (contentHash newHash : String) (reason : Option Value) : Prop :=
  ∃ id p, hashToUuid contentHash = .ok id ∧ s.points id = some p ∧
    p.marker = some (.string newHash) ∧ p.get supersessionReasonKey = reason

/-- The link `src -> dst` carries that reason. -/
def Service.LinkedBy (s : Service) (src dst reason : String) : Prop :=
  ∃ link, s.graph.contradicts src dst = some link ∧ link.refuteReason = some reason

/-- The memory a read returns is parsed from its point. -/
theorem getByHash_eq_some {points : Points} {contentHash : String} {m : Memory}
    (h : getByHash points contentHash = .ok (some m)) :
    ∃ id p, hashToUuid contentHash = .ok id ∧ points id = some p ∧ parsePayload p = some m := by
  obtain ⟨id, hid, h⟩ := bind_eq_ok.mp h
  obtain ⟨p, hp, hparse⟩ := Option.bind_eq_some_iff.mp (Except.ok.inj h)
  exact ⟨id, p, hid, hp, hparse⟩

/-- The copy a conditional supersession reads has the marker and the reason of its point. -/
theorem copy_of_supersedeIfLive {contentHash newHash reason : String} {call : UpdateCall}
    (h : (Op.supersedeIfLive contentHash newHash reason).call = .ok call) (p : Payload) :
    (restrict call.readKeys p).marker = p.marker ∧
      (restrict call.readKeys p).get supersessionReasonKey = p.get supersessionReasonKey := by
  obtain ⟨-, -, -, hkeys, -⟩ := mergeWhileLive_eq_ok
    (show Alaya.supersedeIfLive contentHash newHash reason = .ok call from h)
  rw [hkeys]
  exact ⟨Payload.metadataGet_congr (Object.get_only_of_mem (by simp) p) _,
    Object.get_only_of_mem (by simp) p⟩

section

variable {others : Service → Service → Prop} {s s' : Service} {tr : List (Moment Call Service)}
  {contentHash newHash reason : String}

open Alaya.Flow

theorem among_attempt {serves : (c : Call) → Service → Reply c → Service → Prop} {α : Type} {p : Flow α}
    {x : Except AlayaError (Except AlayaError α)} (h : Among serves others (attempt p).run s tr x s') :
    ∃ y, x = .ok y ∧ Among serves others p.run s tr y s' := Among.map h

/-- What a conditional supersession of a point answers, and what it leaves. -/
theorem update_supersedeIfLive {id : PointId} (hid : hashToUuid contentHash = .ok id) {u : Updated}
    (h : (Service.update (.supersedeIfLive contentHash newHash reason) id s).1 = .ok u) :
    (∃ p created, u.update = .landed p created ∧
      (Service.update (.supersedeIfLive contentHash newHash reason) id s).2.MarkedBy contentHash
        newHash (some (.string reason))) ∨
    (∃ prev, u.update = .skipped ∧ u.found = some prev ∧ ∀ marker, prev.marker = some (.string marker) →
      s.MarkedBy contentHash marker (prev.get supersessionReasonKey)) ∨
    u.update = .absent := by
  obtain ⟨call, hcall, hanswer, hland⟩ := Service.update_answer h
  cases hcell : s.points id with
  | none =>
    rw [hcell] at hanswer
    rcases UpdateCall.answer_none hanswer with ⟨p, hp⟩ | habsent
    · rw [hp, hcell] at hland
      cases created_of_land hland
    · exact .inr (.inr habsent)
  | some q =>
    rw [hcell] at hanswer
    obtain ⟨hfound, hskipped | ⟨p, hlanded⟩⟩ := UpdateCall.answer_some hanswer
    · obtain ⟨hmarker, hreason⟩ := copy_of_supersedeIfLive hcall q
      refine .inr (.inl ⟨_, hskipped, hfound, fun marker hprev => ?_⟩)
      exact ⟨id, q, hid, hcell, hmarker.symm.trans hprev, hreason.symm⟩
    · rw [hlanded] at hland
      have hrecord := record_of_landing (landing_of_land (hcell ▸ hland))
      refine .inl ⟨p, false, hlanded, id, p, hid, ?_, congrArg Record.marker hrecord,
        congrArg Record.reason hrecord⟩
      rw [Service.update_state hland]
      exact Function.update_self ..

/-- A conditional merge that comes to something landed, or its copy stopped it. -/
theorem mergeOutcome_eq_ok {what : String} {u : Updated} {found : Option Payload}
    (h : Vectors.mergeOutcome what contentHash u = .ok found) :
    (found = none ∧ ∃ p created, u.update = .landed p created) ∨
      found = some (u.found.getD []) ∧ u.update = .skipped := by
  unfold Vectors.mergeOutcome at h
  split at h
  · next p created hu => exact .inl ⟨(Except.ok.inj h).symm, p, created, hu⟩
  · next hu => exact .inr ⟨(Except.ok.inj h).symm, hu⟩
  · cases h
  · cases h
  · cases h

/-- **A conditional supersession that reports one was told of it.** -/
theorem once_supersedeIfLive {outcome : ConditionalSupersede} (h : Among Service.Serves others
    (Vectors.supersedeIfLive contentHash newHash reason).run s tr (.ok outcome) s') :
    (outcome = .superseded →
      Once tr fun x => x.MarkedBy contentHash newHash (some (.string reason))) ∧
    ∀ stored, outcome = .alreadySuperseded stored →
      Once tr fun x => x.MarkedBy contentHash newHash stored := by
  obtain ⟨id, hid, h⟩ := Among.check_ok h
  obtain ⟨tr₁, tr₂, u, t, rfl, hupdate, hrest⟩ := Among.seq_ok h
  obtain ⟨t₀, t₁, hmem, hserves⟩ := hupdate.ask
  obtain ⟨found, hfound, hrest⟩ := Among.check_ok hrest
  obtain rfl := Except.ok.inj hrest.eq_of_done
  have hmerged := mergeOutcome_eq_ok hfound
  have hserved := Service.Serves.update hserves (hmerged.symm.imp And.right And.right)
  rcases update_supersedeIfLive hid (congrArg Prod.fst hserved) with
    ⟨p, created, hu, hmarked⟩ | ⟨prev, hu, hprev, hmarked⟩ | habsent
  · rw [hserved] at hmarked
    rcases hmerged with ⟨rfl, -⟩ | ⟨-, hskipped⟩
    · exact ⟨fun _ => Once.left ⟨_, hmem, .inr hmarked⟩, nofun⟩
    · cases hu.symm.trans hskipped
  · rcases hmerged with ⟨-, p, created, hlanded⟩ | ⟨rfl, -⟩
    · cases hu.symm.trans hlanded
    · rw [hprev, Option.getD_some, Vectors.supersedeOutcome]
      split
      · next hmarker =>
        refine ⟨nofun, fun stored h => ?_⟩
        obtain rfl := ConditionalSupersede.alreadySuperseded.inj h
        refine Once.left ⟨_, hmem, .inl (hmarked newHash ?_)⟩
        cases hnone : prev.marker with
        | none =>
          rw [hnone] at hmarker
          cases hmarker
        | some marker =>
          rw [hnone] at hmarker
          exact congrArg some hmarker
      · exact ⟨nofun, nofun⟩
  · rcases hmerged with ⟨-, p, created, hlanded⟩ | ⟨-, hskipped⟩
    · cases habsent.symm.trans hlanded
    · cases habsent.symm.trans hskipped

/-- **The reason of a supersession by the correction was read or written with its marker.** -/
theorem once_supersedeReason {plan : RefutePlan} {stored : Option Value}
    (h : Among Service.Serves others (MemoryService.supersedeReason plan).run s tr (.ok (.ok stored)) s') :
    Once tr fun x => x.MarkedBy plan.contentHash plan.correctionHash stored := by
  obtain ⟨tr₁, tr₂, outcome, t, rfl, hattempt, hrest⟩ := Among.seq_ok h
  obtain ⟨y, hy, hsupersede⟩ := among_attempt hattempt
  obtain rfl := Except.ok.inj hy
  rcases outcome with e | (_ | reason | marker)
  · obtain ⟨tr₃, tr₄, found, t', rfl, hread, hrest⟩ := Among.seq_ok hrest
    obtain ⟨y, hy, hread⟩ := among_attempt hread
    obtain rfl := Except.ok.inj hy
    obtain ⟨t₀, t₁, hmem, hserves⟩ := hread.ask
    refine Once.right (Once.left ⟨_, hmem, .inl ?_⟩)
    rcases found with e | (_ | m)
    · cases Among.eq_of_done hrest
    · cases Among.eq_of_done hrest
    · have hfound : getByHash t₀.points plan.contentHash = .ok (some m) := by
        rcases hserves with hserved | ⟨hunsure, -⟩
        · exact congrArg Prod.fst hserved
        · exact hunsure.elim
      obtain ⟨id, p, hid, hp, hparse⟩ := getByHash_eq_some hfound
      have hmarker := supersessionMarker_of_parse hparse
      have hreason := (parsePayload_eq_some hparse).2.2.2.2
      dsimp only at hrest
      cases hm : m.supersessionMarker with
      | none =>
        rw [hm] at hrest
        cases Among.eq_of_done hrest
      | some marker =>
        rw [hm] at hrest hmarker
        have hstored := Except.ok.inj (Among.eq_of_done hrest)
        split at hstored
        · next hcorrection =>
          obtain rfl := Except.ok.inj hstored
          exact ⟨id, p, hid, hp, hmarker.symm.trans (congrArg some (Value.asStr_eq_some.mp hcorrection)),
            hreason.symm⟩
        · cases hstored
  · obtain rfl := Except.ok.inj (Except.ok.inj (Among.eq_of_done hrest))
    exact Once.left ((once_supersedeIfLive hsupersede).1 rfl)
  · obtain rfl := Except.ok.inj (Except.ok.inj (Among.eq_of_done hrest))
    exact Once.left ((once_supersedeIfLive hsupersede).2 _ rfl)
  · cases Among.eq_of_done hrest

/-- The link a refutation reports carries the reason it reports. -/
theorem linkRefutation_eq_some {g : Graph} {src dst : String} {ts : ℚ} {stored : String}
    (h : (g.linkRefutation src dst ts reason).1 = some stored) :
    ∃ link, (g.linkRefutation src dst ts reason).2.contradicts src dst = some link ∧
      link.refuteReason = some stored := by
  rw [Graph.contradicts_linkRefutation]
  unfold Graph.linkRefutation at h
  split at h
  · next hnodes =>
    rw [if_pos ⟨hnodes, rfl, rfl⟩]
    exact ⟨_, rfl, h⟩
  · cases h

section

variable {plan : RefutePlan} {now : ℚ}

theorem once_linkCorrection {stored : String} (h : Among Service.Serves others
    (MemoryService.linkCorrection plan now).run s tr (.ok (.ok stored)) s') :
    Once tr fun x => x.LinkedBy plan.correctionHash plan.contentHash stored := by
  obtain ⟨tr₁, tr₂, _, t, rfl, -, h⟩ := Among.seq_ok h
  obtain ⟨tr₃, tr₄, _, t', rfl, -, h⟩ := Among.seq_ok h
  obtain ⟨tr₅, tr₆, x, t₂, rfl, hattempt, hrest⟩ := Among.seq_ok h
  obtain ⟨y, hy, hlink⟩ := among_attempt hattempt
  obtain rfl := Except.ok.inj hy
  obtain ⟨t₀, t₁, hmem, hserves⟩ := hlink.ask
  rcases x with e | (_ | stored')
  · cases Among.eq_of_done hrest
  · cases Among.eq_of_done hrest
  · obtain rfl := Except.ok.inj (Except.ok.inj (Among.eq_of_done hrest))
    refine Once.right (Once.right (Once.left ⟨_, hmem, .inr ?_⟩))
    rcases hserves with hserved | ⟨hunsure, -⟩
    · obtain ⟨hanswer, rfl⟩ := Prod.mk.inj hserved
      exact linkRefutation_eq_some (Except.ok.inj hanswer)
    · exact hunsure.elim

/-- What the second phase reports was so at some moment. -/
theorem once_refuteSupersede (h : Among Service.Serves others
    (MemoryService.refuteSupersede plan).run s tr (.ok .superseded) s') :
    Once tr fun x => x.MarkedBy plan.contentHash plan.correctionHash (some (.string plan.reason)) := by
  obtain ⟨tr₁, tr₂, gone, t, rfl, hgone, hrest⟩ := Among.seq_ok h
  have hends := hgone.returns returns_correctionGone
  cases gone with
  | some ending =>
    obtain rfl := Except.ok.inj (Among.eq_of_done hrest)
    exact (hends _ rfl).elim
  | none =>
    obtain ⟨tr₃, tr₄, x, t', rfl, hreason, hrest⟩ := Among.seq_ok hrest
    have hends := hreason.returns returns_supersedeReason
    cases x with
    | error ending =>
      obtain rfl := Except.ok.inj (Among.eq_of_done hrest)
      exact (hends _ rfl).elim
    | ok stored =>
      dsimp only at hrest
      split at hrest
      · cases Among.eq_of_done hrest
      · next hstored =>
        rw [not_not] at hstored
        subst hstored
        exact Once.right (Once.left (once_supersedeReason hreason))

theorem once_refuteContradicts (h : Among Service.Serves others
    (MemoryService.refuteContradicts plan now).run s tr (.ok .contradicts) s') :
    Once tr fun x => x.LinkedBy plan.correctionHash plan.contentHash plan.reason := by
  obtain ⟨tr₁, tr₂, gone, t, rfl, hgone, hrest⟩ := Among.seq_ok h
  have hends := hgone.returns returns_correctionGone
  cases gone with
  | some ending =>
    obtain rfl := Except.ok.inj (Among.eq_of_done hrest)
    exact (hends _ rfl).elim
  | none =>
    obtain ⟨tr₃, tr₄, wrong, t', rfl, hwrong, hrest⟩ := Among.seq_ok hrest
    have hends := hwrong.returns returns_wrongGone
    cases wrong with
    | some ending =>
      obtain rfl := Except.ok.inj (Among.eq_of_done hrest)
      exact (hends _ rfl).elim
    | none =>
      obtain ⟨tr₅, tr₆, x, t₂, rfl, hlink, hrest⟩ := Among.seq_ok hrest
      have hends := hlink.returns returns_linkCorrection
      cases x with
      | error ending =>
        obtain rfl := Except.ok.inj (Among.eq_of_done hrest)
        exact (hends _ rfl).elim
      | ok stored =>
        obtain ⟨tr₇, tr₈, wrong, t₃, rfl, hwrong, hrest⟩ := Among.seq_ok hrest
        have hends := hwrong.returns returns_wrongGone
        cases wrong with
        | some ending =>
          obtain rfl := Except.ok.inj (Among.eq_of_done hrest)
          exact (hends _ rfl).elim
        | none =>
          have hsame := Except.ok.inj (Among.eq_of_done hrest)
          split at hsame
          · cases hsame
          · next hstored =>
            rw [not_not] at hstored
            exact Once.right (Once.right (Once.left (hstored ▸ once_linkCorrection hlink)))

end

/-! ### What a refusal leaves -/

/-- The call leaves both stores as they are. -/
def Service.Same (s s' : Service) : Prop := s' = s

theorem Service.Same.adds (h : s.Same s') : s.Adds s' := by
  obtain rfl := h
  exact ⟨fun _ _ h => h, rfl⟩

/-- A program that only asks leaves both stores as they are. -/
theorem own_reads {α : Type} {p : Flow α} {x : Except AlayaError α} (hp : p.run.Makes Call.Reads)
    (h : Among Service.Serves others p.run s tr x s') : Own tr Service.Same :=
  h.own hp fun _ _ _ _ hc hserves => hserves.effect.eq_of_reads hc

theorem adds_insert {params : StoreParams} {ctx : StoreContext} {id : PointId}
    (h : s.Effect (.vectors (.update (.store params ctx .insertOnly) id)) s') : s.Adds s' := by
  cases h with
  | quiet => exact ⟨fun _ _ h => h, rfl⟩
  | @landed _ _ p hland =>
    refine ⟨fun id' q hq => ?_, rfl⟩
    by_cases hid : id' = id
    · subst hid
      rw [hq] at hland
      exact (not_land_insertOnly hland).elim
    · rw [points_write_of_ne hid, hq]

/-- An insert that creates nothing leaves both stores as they are. -/
theorem same_insert {params : StoreParams} {ctx : StoreContext} {id : PointId} {u : Updated}
    {hash hash' : String}
    (h : s.Serves (.vectors (.update (.store params ctx .insertOnly) id)) (.ok u) s')
    (hu : storeResult hash (some u.update) = .ok (false, hash')) : s.Same s' := by
  have hsure : u.update = .skipped ∨ ∃ p, u.update = .landed p false := by
    revert hu
    cases u.update with
    | landed p created =>
      intro hu
      obtain ⟨rfl, -⟩ := Prod.mk.inj (Except.ok.inj hu)
      exact .inr ⟨p, rfl⟩
    | skipped => exact fun _ => .inl rfl
    | absent | deleted | unconfirmed => exact fun hu => by cases hu
  have hserved := h.update (hsure.imp_right fun ⟨p, hp⟩ => ⟨p, false, hp⟩)
  obtain ⟨call, -, hanswer, hland⟩ := Service.update_answer (congrArg Prod.fst hserved)
  rcases hsure with hu | ⟨p, hu⟩
  · rw [hu] at hland
    exact (congrArg Prod.snd hserved).symm.trans (Service.update_kept hland)
  · rw [hu] at hland
    cases hcell : s.points id with
    | none =>
      rw [hcell] at hanswer
      rcases UpdateCall.answer_none hanswer with ⟨p', hp'⟩ | habsent
      · cases hu.symm.trans hp'
      · cases hu.symm.trans habsent
    | some q =>
      rw [hcell] at hland
      exact (not_land_insertOnly hland).elim

/-- What an end of the correction's store leaves: without one nothing, and without a report only what
was there. -/
structure StoreLeaves (tr : List (Moment Call Service))
    (r : Except AlayaError (Option StoreReport)) : Prop where
  none : r = .ok none → Own tr Service.Same
  failed : (∀ report, r ≠ .ok (some report)) → Own tr Service.Adds

theorem StoreLeaves.append {tr₁ tr₂ : List (Moment Call Service)}
    {r : Except AlayaError (Option StoreReport)} (h₁ : Own tr₁ Service.Same)
    (h₂ : StoreLeaves tr₂ r) : StoreLeaves (tr₁ ++ tr₂) r :=
  ⟨fun h => h₁.append (h₂.none h),
    fun h => (h₁.mono fun _ _ h => h.adds).append (h₂.failed h)⟩

theorem StoreLeaves.of_same {r : Except AlayaError (Option StoreReport)} (h : Own tr Service.Same) :
    StoreLeaves tr r := ⟨fun _ => h, fun _ => h.mono fun _ _ h => h.adds⟩

section

variable {lib : Components} {params : StoreParams} {now : ℚ}

theorem own_insert {ctx : StoreContext} {x : Except AlayaError (Bool × String)}
    (h : Among Service.Serves others (Vectors.store params ctx .insertOnly).run s tr x s') :
    Own tr Service.Adds ∧ ∀ hash, x = .ok (false, hash) → Own tr Service.Same := by
  have hmakes : (Vectors.store params ctx .insertOnly).run.Makes fun c =>
      ∃ id, c = .vectors (.update (.store params ctx .insertOnly) id) :=
    Program.Makes.seq (.ofExcept _) fun id => (makes_ask ⟨id, rfl⟩).seq fun _ => .ofExcept _
  refine ⟨h.own hmakes ?_, fun hash hx => ?_⟩
  · rintro c t r t' ⟨id, rfl⟩ hserves
    exact adds_insert hserves.effect
  · subst hx
    obtain ⟨id, -, h⟩ := Among.check_ok h
    obtain ⟨tr₁, tr₂, u, t, rfl, hupdate, hrest⟩ := Among.seq_ok h
    have hstored : storeResult ctx.contentHash (some (show Updated from u).update) =
        .ok (false, hash) := by
      have hrest' : Among Service.Serves others (ofExcept (storeResult ctx.contentHash
          (some (show Updated from u).update)) : Flow (Bool × String)).run t tr₂ (.ok (false, hash)) s' :=
        hrest
      cases hresult : storeResult ctx.contentHash (some (show Updated from u).update) with
      | ok a =>
        rw [hresult] at hrest'
        exact hrest'.eq_of_done.symm
      | error e =>
        rw [hresult] at hrest'
        cases hrest'.eq_of_done
    exact (hupdate.own_ask.mono fun _ _ hserves => same_insert hserves hstored).append
      (own_reads (Program.Makes.ofExcept _) hrest)

/-- The graph steps of a store never fail it. -/
theorem linkStored_ok {contentHash : String} {edges : List Bridge.TypedEdge} {x : Except AlayaError Unit}
    (h : Among Service.Serves others (MemoryService.linkStored contentHash edges).run s tr x s') :
    x = .ok () := by
  obtain ⟨tr₁, tr₂, y, t, rfl, hnode, hrest⟩ := Among.seq h
  obtain ⟨y, rfl, -⟩ := among_attempt hnode
  have hrest' : Among Service.Serves others (if edges = [] then (pure () : Flow Unit) else do
      let _ ← attempt (Bridge.createTypedBatch edges)
      return ()).run t tr₂ x s' := hrest
  split at hrest'
  · exact hrest'.eq_of_done
  · obtain ⟨tr₃, tr₄, z, t', rfl, hedges, hrest⟩ := Among.seq hrest'
    obtain ⟨z, rfl, -⟩ := among_attempt hedges
    exact Among.eq_of_done hrest

theorem leaves_storePoint {embedding : List ℚ} {similar : Option (List ScoredMemory)}
    {r : Except AlayaError (Option StoreReport)} (h : Among Service.Serves others
      (MemoryService.storePoint lib params false true now embedding similar).run s tr r s') :
    StoreLeaves tr r := by
  obtain ⟨tr₁, tr₂, x, t, rfl, hstore, hrest⟩ := Among.seq h
  obtain ⟨hadds, hsame⟩ := own_insert hstore
  rcases x with e | ⟨created, hash⟩
  · obtain rfl := Among.eq_of_done hrest
    exact ⟨nofun, fun _ => hadds.append (Among.own_done hrest)⟩
  · cases created with
    | false =>
      obtain rfl := Among.eq_of_done hrest
      exact .of_same ((hsame hash rfl).append (Among.own_done hrest))
    | true =>
      obtain ⟨tr₃, tr₄, y, t', rfl, hlink, hrest⟩ := Among.seq hrest
      obtain rfl := linkStored_ok hlink
      obtain rfl := Among.eq_of_done hrest
      exact ⟨nofun, fun h => absurd rfl (h _)⟩

theorem leaves_storeMemoryMode {r : Except AlayaError (Option StoreReport)}
    (h : Among Service.Serves others
      (MemoryService.storeMemoryMode lib params false true now).run s tr r s') :
    StoreLeaves tr r := by
  unfold MemoryService.storeMemoryMode at h
  split at h
  · exact .of_same (Among.own_done h)
  have hcheck := Among.check h
  cases hvalid : checked params.validate with
  | error e =>
    rw [hvalid] at hcheck
    exact .of_same (Among.own_done hcheck)
  | ok _ =>
    rw [hvalid] at hcheck
    obtain ⟨tr₁, tr₂, x, t, rfl, hembed, hrest⟩ := Among.seq hcheck
    have hasked := own_reads (makes_ask (c := .query (.embed params.content)) trivial) hembed
    rcases x with e | (_ | embedding)
    · exact .append hasked (.of_same (Among.own_done hrest))
    · exact .append hasked (.of_same (Among.own_done hrest))
    · refine .append hasked ?_
      obtain ⟨tr₃, tr₄, y, t', rfl, hnear, hrest⟩ := Among.seq hrest
      have hasked : Own tr₃ Service.Same := by
        refine own_reads ?_ hnear
        unfold MemoryService.nearDuplicate
        split
        · exact .pure _
        · exact (makes_attempt (makes_ask trivial)).seq fun _ => .pure _
      rcases y with e | (_ | top)
      · exact .append hasked (.of_same (Among.own_done hrest))
      · obtain ⟨tr₅, tr₆, z, t₂, rfl, hsearch, hrest⟩ := Among.seq hrest
        have hsearched : Own tr₅ Service.Same :=
          own_reads ((makes_attempt (makes_ask trivial)).seq fun _ => .pure _) hsearch
        cases z with
        | error e => exact .append hasked (.append hsearched (.of_same (Among.own_done hrest)))
        | ok similar => exact .append hasked (.append hsearched (leaves_storePoint hrest))
      · exact .append hasked (.of_same (Among.own_done hrest))

end

section

variable {lib : Components} {refutation : Refutation} {now : ℚ} {correctionHash : String}

/-- The refusal of a refute whose correction was deleted while it was being stored. -/
def deletedWhileStored : Refusal :=
  .correctionDeleted ("The correction was deleted while it was being stored; " ++
    "nothing was written. Retry the refute")

theorem own_useExisting {x : Except AlayaError (Except Refusal Memory)} (h : Among Service.Serves others
    (MemoryService.useExisting refutation correctionHash).run s tr x s') : Own tr Service.Same := by
  refine own_reads ((makes_ask trivial).seq fun found => ?_) h
  cases found with
  | none => exact (Program.Makes.seq (makes_ask trivial) fun _ => .pure _).seq fun _ => .pure _
  | some m =>
    dsimp only
    cases refutation.refusal m <;> exact .pure _

/-- What a refusal leaves. -/
structure RefusalLeaves (tr : List (Moment Call Service)) (refusal : Refusal) : Prop where
  adds : Own tr Service.Adds
  same : refusal ≠ deletedWhileStored → Own tr Service.Same

theorem RefusalLeaves.of_same {refusal : Refusal} (h : Own tr Service.Same) :
    RefusalLeaves tr refusal := ⟨h.mono fun _ _ h => h.adds, fun _ => h⟩

theorem RefusalLeaves.append {tr₁ tr₂ : List (Moment Call Service)} {refusal : Refusal}
    (h₁ : Own tr₁ Service.Same) (h₂ : RefusalLeaves tr₂ refusal) : RefusalLeaves (tr₁ ++ tr₂) refusal :=
  ⟨(h₁.mono fun _ _ h => h.adds).append h₂.adds, fun h => h₁.append (h₂.same h)⟩

theorem RefusalLeaves.before {tr₁ tr₂ : List (Moment Call Service)} {refusal : Refusal}
    (h₁ : RefusalLeaves tr₁ refusal) (h₂ : Own tr₂ Service.Same) : RefusalLeaves (tr₁ ++ tr₂) refusal :=
  ⟨h₁.adds.append (h₂.mono fun _ _ h => h.adds), fun h => (h₁.same h).append h₂⟩

theorem leaves_storeCorrection {existing : Option Memory} {refusal : Refusal}
    (h : Among Service.Serves others
      (MemoryService.storeCorrection lib refutation correctionHash existing now).run s tr
      (.ok (.error refusal)) s') : RefusalLeaves tr refusal := by
  unfold MemoryService.storeCorrection at h
  cases existing with
  | some m =>
    dsimp only at h
    refine .of_same (own_reads ?_ h)
    cases refutation.refusal m <;> exact .pure _
  | none =>
    obtain ⟨tr₁, tr₂, x, t, rfl, hattempt, hrest⟩ := Among.seq_ok h
    obtain ⟨y, hy, hstore⟩ := among_attempt hattempt
    obtain rfl := Except.ok.inj hy
    have hleaves := leaves_storeMemoryMode hstore
    rcases x with e | (_ | stored)
    · have hadds := hleaves.failed fun _ h => by cases h
      cases e with
      | deletedWhileStoring what =>
        obtain rfl := Except.error.inj (Except.ok.inj (Among.eq_of_done hrest))
        exact ⟨hadds.append (Among.own_done hrest), fun h => absurd rfl h⟩
      | _ => cases Among.eq_of_done hrest
    · obtain ⟨tr₃, tr₄, used, t', rfl, huse, hrest⟩ := Among.seq_ok hrest
      refine .of_same ((hleaves.none rfl).append ((own_useExisting huse).append ?_))
      cases used <;> exact Among.own_done hrest
    · cases Among.eq_of_done hrest

/-- **A refusal leaves both stores as they were**, but for a correction that was deleted while it was
being stored: that one may have added its point, and nothing else. -/
theorem leaves_refuteStore {refusal : Refusal} (h : Among Service.Serves others
    (MemoryService.refuteStore lib contentHash refutation now).run s tr (.ok (.refused refusal)) s') :
    RefusalLeaves tr refusal := by
  obtain ⟨⟨reason, correctionHash⟩, -, h⟩ := Among.check_ok h
  obtain ⟨tr₁, tr₂, found, t, rfl, hbatch, hrest⟩ := Among.seq_ok h
  have hasked := own_reads (makes_getBatch _ trivial) hbatch
  cases hwrong : found.find? fun m => m.contentHash = contentHash with
  | none =>
    rw [hwrong] at hrest
    exact .of_same (hasked.append (Among.own_done hrest))
  | some wrong =>
    rw [hwrong] at hrest
    dsimp only at hrest
    cases hrefused : MemoryService.wrongRefusal refutation correctionHash wrong with
    | some refused =>
      rw [hrefused] at hrest
      exact .of_same (hasked.append (Among.own_done hrest))
    | none =>
      rw [hrefused] at hrest
      obtain ⟨tr₃, tr₄, x, t', rfl, hstore, hrest⟩ := Among.seq_ok hrest
      rcases x with refused | ⟨existing, stored⟩
      · obtain rfl := RefuteStage.refused.inj (Except.ok.inj (Among.eq_of_done hrest))
        exact .append hasked ((leaves_storeCorrection hstore).before (Among.own_done hrest))
      · cases Among.eq_of_done hrest

/-- A refute that reached its second phase acted on a plan of its own input, and what it says it did
was so at some moment. -/
theorem finished_of_run {plan : RefutePlan} {ending : RefuteEnd} (h : Among Service.Serves others
      (MemoryService.memoryRefute lib contentHash refutation now).run s tr
      (.ok (.finished plan ending)) s') :
    plan.Of lib contentHash refutation ∧
    (ending = .superseded → Once tr fun x =>
      x.MarkedBy plan.contentHash plan.correctionHash (some (.string plan.reason))) ∧
    (ending = .contradicts → Once tr fun x =>
      x.LinkedBy plan.correctionHash plan.contentHash plan.reason) := by
  obtain ⟨tr₁, tr₂, stage, t, rfl, hstore, hrest⟩ := Among.seq_ok h
  have hof := hstore.returns returns_refuteStore
  cases stage with
  | refused refusal => cases Among.eq_of_done hrest
  | stored plan' =>
    obtain ⟨tr₃, tr₄, ending', t', rfl, hfinish, hrest⟩ := Among.seq_ok hrest
    obtain ⟨rfl, rfl⟩ := RefuteAnswer.finished.inj (Except.ok.inj (Among.eq_of_done hrest))
    refine ⟨hof, ?_⟩
    unfold MemoryService.refuteFinish at hfinish
    split at hfinish
    · refine ⟨fun hending => ?_, fun hending => ?_⟩
      · subst hending
        exact Once.right (Once.left (once_refuteSupersede hfinish))
      · have hends := hfinish.returns returns_refuteSupersede
        exact absurd hending hends
    · refine ⟨fun hending => ?_, fun hending => ?_⟩
      · have hends := hfinish.returns returns_refuteContradicts
        exact absurd hending hends
      · subst hending
        exact Once.right (Once.left (once_refuteContradicts hfinish))

/-- **A refute reports only what was true and overwrites nothing.**  Whatever else happens to the
stores, and whichever of its calls fail: none of its moments changes a marked memory or a reason on a
link; a success that says superseded or contradicts was so at some moment; and a refusal leaves the
stores as they were. -/
theorem refute_reports {r : Except AlayaError RefuteAnswer}
    (h : Among Service.Serves others
      (MemoryService.memoryRefute lib contentHash refutation now).run s tr r s') :
    Own tr Service.Keeps ∧
    (∀ answer, r = .ok answer →
      (answer.status = "superseded" → answer.success → Once tr fun x => x.MarkedBy contentHash
        (lib.generateContentHash refutation.content) (some (.string (trim refutation.reason)))) ∧
      (answer.status = "contradicts" → Once tr fun x => x.LinkedBy
        (lib.generateContentHash refutation.content) contentHash (trim refutation.reason))) ∧
    ∀ refusal, r = .ok (.refused refusal) → RefusalLeaves tr refusal := by
  refine ⟨h.own makes_memoryRefute fun _ _ _ _ hc hserves => keeps_of_refute hc hserves.effect, ?_, ?_⟩
  · rintro (refusal | ⟨plan, ending⟩) rfl
    · refine ⟨fun _ h => absurd h Bool.false_ne_true, fun h => ?_⟩
      cases refusal <;> simp [RefuteAnswer.status, Refusal.status] at h
    · obtain ⟨hplan, hsuperseded, hcontradicts⟩ := finished_of_run h
      rw [← hplan.contentHash, ← hplan.correctionHash, ← hplan.reason]
      constructor
      · intro hstatus _
        cases ending <;> simp [RefuteAnswer.status, RefuteEnd.status] at hstatus
        exact hsuperseded rfl
      · intro hstatus
        cases ending <;> simp [RefuteAnswer.status, RefuteEnd.status] at hstatus
        exact hcontradicts rfl
  · rintro refusal rfl
    obtain ⟨tr₁, tr₂, stage, t, rfl, hstore, hrest⟩ := Among.seq_ok h
    cases stage with
    | refused refusal' =>
      obtain rfl := RefuteAnswer.refused.inj (Except.ok.inj (Among.eq_of_done hrest))
      exact (leaves_refuteStore hstore).before (Among.own_done hrest)
    | stored plan =>
      obtain ⟨_, _, _, _, -, -, hrest⟩ := Among.seq_ok hrest
      cases Among.eq_of_done hrest

end

end

/-! ### A refusal that says superseded -/

/-- Nobody else moves. -/
def Nobody (_ _ : Service) : Prop := False

theorem Service.serves_serve (c : Call) (s : Service) :
    s.Serves c (Service.serve c s).1 (Service.serve c s).2 := .inl rfl

theorem run_alone {α : Type} (p : Program Reply α) (s : Service) :
    ∃ tr, Among Service.Serves Nobody p s tr (p.run Service.serve s).1 (p.run Service.serve s).2 :=
  Among.alone Service.serves_serve p s

def thirdHash : String := String.ofList (List.replicate 64 'c')

/-- The old memory was superseded by a third one. -/
def supersededByThird : Service :=
  (Service.serve (.vectors (.update (.markSuperseded [eldestHash] thirdHash "outdated") eldestPoint))
    twoMemories).2

/-- The other memory's text, filed as a correction that supersedes. -/
def plainRefutation : Refutation where
  content := "new"
  reason := "outdated"
  supersede := true

/-- **A refute of a memory that another one superseded answers superseded**, and the memory never
carries the marker of this correction. -/
theorem superseded_refusal : ∃ tr answer s',
    Among Service.Serves Nobody
      (MemoryService.memoryRefute plainComponents eldestHash plainRefutation 1).run supersededByThird tr
      (.ok answer) s' ∧ answer.status = "superseded" ∧
    ¬Once tr fun x => ∃ reason, x.MarkedBy eldestHash survivorHash reason := by
  set p := (MemoryService.memoryRefute plainComponents eldestHash plainRefutation 1).run with hp
  have hstatus : (p.run Service.serve supersededByThird).1.toOption.map RefuteAnswer.status =
      some "superseded" := by decide +kernel
  have hmarked : (supersededByThird.points eldestPoint).bind Payload.marker =
      some (.string thirdHash) := by decide +kernel
  have hid : hashToUuid eldestHash = .ok eldestPoint := by decide +kernel
  obtain ⟨answer, hanswer, hstatus⟩ := Option.map_eq_some_iff.mp hstatus
  obtain ⟨q, hq, hmarker⟩ := Option.bind_eq_some_iff.mp hmarked
  obtain ⟨tr, hrun⟩ := run_alone p supersededByThird
  rw [toOption_eq_some.mp hanswer] at hrun
  refine ⟨tr, answer, _, hrun, hstatus, ?_⟩
  -- The third memory's marker stays on the point through the whole run.
  have hkept := (hrun.preserves (I := fun x => x.points eldestPoint = some q) makes_memoryRefute
    (fun _ _ _ _ hc hserves h => (keeps_of_refute hc hserves.effect).marked _ _ h (by rw [hmarker]; rfl))
    (fun _ _ h => h.elim) hq).2
  have hother : ∀ x : Service, x.points eldestPoint = some q →
      ¬∃ reason, x.MarkedBy eldestHash survivorHash reason := by
    rintro x hx ⟨reason, id, q', hid', hq', hmarker', -⟩
    obtain rfl := Except.ok.inj (hid.symm.trans hid')
    obtain rfl := Option.some.inj (hx.symm.trans hq')
    have hsame := Value.string.inj (Option.some.inj (hmarker.symm.trans hmarker'))
    exact absurd hsame (by decide)
  rintro ⟨m, hm, hbefore | hafter⟩
  · exact hother _ (hkept m hm).1 hbefore
  · exact hother _ (hkept m hm).2 hafter

/-- Alone, a refute of a live memory supersedes it by the memory that holds the correction's text. -/
theorem refute_reports_alone : ∃ tr answer s',
    Among Service.Serves Nobody
      (MemoryService.memoryRefute plainComponents eldestHash plainRefutation 1).run twoMemories tr
      (.ok answer) s' ∧ answer.status = "superseded" ∧
    Once tr fun x => x.MarkedBy eldestHash survivorHash (some (.string "outdated")) := by
  set p := (MemoryService.memoryRefute plainComponents eldestHash plainRefutation 1).run with hp
  have hresult : (p.run Service.serve twoMemories).1.toOption.map (fun answer =>
      (answer.status, answer.success)) = some ("superseded", true) := by decide +kernel
  have hreason : trim plainRefutation.reason = "outdated" := by decide +kernel
  obtain ⟨answer, hanswer, hresult⟩ := Option.map_eq_some_iff.mp hresult
  obtain ⟨hstatus, hsuccess⟩ := Prod.mk.inj hresult
  obtain ⟨tr, hrun⟩ := run_alone p twoMemories
  rw [toOption_eq_some.mp hanswer] at hrun
  have honce := ((refute_reports hrun).2.1 answer rfl).1 hstatus hsuccess
  rw [hreason] at honce
  exact ⟨tr, answer, _, hrun, hstatus, honce⟩

end Alaya
