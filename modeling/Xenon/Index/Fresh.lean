import Xenon.Index.Searcher

/-!
# Read your writes

A searcher whose reader misses a document has a time before the update time of the
document: the time of a searcher is taken before its reader is opened, and the update
time after the document was added. So it is enough that the cache has a time that is not
earlier than the update time, under the link, the kind or the index, whatever the query
looks at.

For kinds and for the index this always holds. For a single link it does not. An
eviction removes the entry of a link under the lock and stores
`serviceRemovalDetectedTimeMicros`, which stands in for the entry, after the lock was
released; a removal time that was taken earlier can replace a later one; an entry that is
made again, from a query result or by an update that was overtaken, can have an earlier
time than the one that was evicted; and an update with an older version than the entry
leaves no time. `Covered` is the condition that none of this happens.
-/

namespace Xenon.Index

open Xenon.Foundation

/-! ## The condition on steps -/

/-- If the link has no entry then the new one covers the updates of the link that are
recorded. -/
def CoversLink (s : Shared) (link : String) (version time : Int) : Prop :=
  s.cache.updatesPerLink link = none →
    0 ≤ version ∧ ∀ a ∈ s.recorded, a.update.link = link → a.update.isImmutable = false →
      a.time ≤ time

instance (s : Shared) (link : String) (version time : Int) :
    Decidable (CoversLink s link version time) :=
  inferInstanceAs (Decidable (_ → _))

/-- The times that stand for the updates of a link are not lost by this step, and a query for
a single link does not look at the cache between the removal of its entry and the store of
the removal time. -/
def Covered (s : Shared) : Task → Answer → Prop
  | .recordDelete u time, .description false => CoversLink s u.link 0 time
  | .recordUpdate a, _ =>
      a.update.isImmutable = false →
        CoversLink s a.update.link a.update.version a.time ∧
          ∀ e ∈ s.cache.updatesPerLink a.update.link, e.version ≤ a.update.version
  | .results, .lookup link version updateTime => CoversLink s link version updateTime
  | .storeRemoval _ time, _ => s.cache.serviceRemovalDetectedTimeMicros ≤ time
  | .decide _ (.link selfLink) _ _, _ =>
      s.cache.updatesPerLink selfLink = none → selfLink ∉ s.evicting
  | _, _ => True

instance (s : Shared) (t : Task) (k : Answer) : Decidable (Covered s t k) := by
  unfold Covered
  split <;> infer_instance

/-! ## The invariant -/

/-- A reader that misses a document has a time before the update time of the document. -/
structure Searcher.Timely (s : Shared) (x : Searcher) : Prop where
  past : x.updateTime ≤ s.now
  misses : ∀ a ∈ s.stamped, x.opened < a.position → x.updateTime < a.time

/-- The times of the index, of the kind and of the parent stand for the update. -/
structure Cache.Knows (c : Cache) (a : Added) : Prop where
  writer : a.time ≤ c.writerUpdateTimeMicros
  kind : ∀ kind ∈ a.update.kind,
    ∃ time, a.time ≤ time ∧ c.documentKindUpdateInfo kind = some time
  parent : a.update.isImmutable = true → ∃ time, a.time ≤ time ∧
    c.immutableParentLinks (getParentPath a.update.link) = some time

/-- What holds of the shared state. -/
structure Sound (s : Shared) : Prop where
  searchers : ∀ {threadId x}, s.searchers threadId = some x → x.Timely s
  stamped : ∀ a ∈ s.stamped, a.position ≤ s.changes ∧ a.time ≤ s.now
  recorded : s.recorded ⊆ s.stamped
  completed : s.completed ⊆ s.recorded
  known : ∀ a ∈ s.recorded, s.cache.Knows a
  reads : ReadsWrites s

/-- What holds of a task. -/
def Task.Ok (s : Shared) : Task → Prop
  | .stampUpdate _ position => position ≤ s.changes
  | .recordUpdate a => a ∈ s.stamped
  | .complete a => a ∈ s.recorded
  | .stampQuery _ _ before => before ⊆ s.recorded
  | .decide _ _ before time => before ⊆ s.recorded ∧ time ≤ s.now
  | .openReader _ _ before time old =>
      before ⊆ s.recorded ∧ time ≤ s.now ∧ ∀ x ∈ old, x.Timely s
  | .put _ _ before x => x.Timely s ∧ ∀ a ∈ before, a.position ≤ x.opened
  | _ => True

/-- The links whose removal time a task has still to store. -/
def Task.evicted : Task → List String
  | .stampRemoval links => links
  | .storeRemoval links _ => links
  | _ => []

/-- The task will store a removal time that stands for an update of the link. -/
def Task.WillCover (link : String) (time : Int) : Task → Prop
  | .stampRemoval links => link ∈ links
  | .storeRemoval links t => link ∈ links ∧ time ≤ t
  | _ => False

/-- The entry of the link, or a removal time, stands for the update. -/
def LinkTime (s : Shared) (ts : List Task) (a : Added) : Prop :=
  match s.cache.updatesPerLink a.update.link with
  | some e => a.time ≤ e.updateTimeMicros
  | none => a.time ≤ s.cache.serviceRemovalDetectedTimeMicros ∨
      ∃ t ∈ ts, t.WillCover a.update.link a.time

structure Inv (s : Shared) (ts : List Task) : Prop where
  sound : Sound s
  tasks : ∀ t ∈ ts, t.Ok s
  links : ∀ a ∈ s.recorded, a.update.isImmutable = false → LinkTime s ts a
  evicting : s.evicting = (ts.flatMap Task.evicted : List String)

/-! ## What later states keep -/

/-- Time has passed. -/
structure Later (s s' : Shared) : Prop where
  now : s.now ≤ s'.now
  changes : s.changes ≤ s'.changes
  recorded : s.recorded ⊆ s'.recorded
  stamped : s.stamped ⊆ s'.stamped
  fresh : ∀ a ∈ s'.stamped, a ∈ s.stamped ∨ s.now < a.time

/-- No update is stamped or recorded. -/
theorem Later.of_eq {s s' : Shared} (hnow : s.now ≤ s'.now) (hchanges : s.changes ≤ s'.changes)
    (hrecorded : s'.recorded = s.recorded) (hstamped : s'.stamped = s.stamped) : Later s s' where
  now := hnow
  changes := hchanges
  recorded := hrecorded.symm ▸ List.Subset.refl _
  stamped := hstamped.symm ▸ List.Subset.refl _
  fresh := by
    intro a ha
    rw [hstamped] at ha
    exact Or.inl ha

theorem Later.refl (s : Shared) : Later s s := .of_eq le_rfl le_rfl rfl rfl

theorem Searcher.Timely.later {s s' : Shared} {x : Searcher} (h : x.Timely s)
    (hs : Later s s') : x.Timely s' := by
  refine ⟨h.past.trans hs.now, fun a ha hmiss => ?_⟩
  rcases hs.fresh a ha with ha | hfresh
  · exact h.misses a ha hmiss
  · exact h.past.trans_lt hfresh

theorem Task.Ok.later {s s' : Shared} {t : Task} (h : t.Ok s) (hs : Later s s') : t.Ok s' := by
  cases t with
  | stampUpdate u position => exact le_trans h hs.changes
  | recordUpdate a => exact hs.stamped h
  | complete a => exact hs.recorded h
  | stampQuery threadId scope before => exact fun a ha => hs.recorded (h ha)
  | decide threadId scope before time =>
      exact ⟨fun a ha => hs.recorded (h.1 ha), h.2.trans hs.now⟩
  | openReader threadId scope before time old =>
      exact ⟨fun a ha => hs.recorded (h.1 ha), h.2.1.trans hs.now,
        fun x hx => (h.2.2 x hx).later hs⟩
  | put threadId scope before x => exact ⟨h.1.later hs, h.2⟩
  | deleteDocuments | removeEntry | stampDelete | recordDelete | addDocument | evict
  | stampRemoval | storeRemoval | results => trivial

/-- A searcher that is opened now sees every document. -/
theorem Sound.timely {s : Shared} (h : Sound s) {time : Int} (ht : time ≤ s.now) :
    Searcher.Timely s ⟨s.changes, time⟩ :=
  ⟨ht, fun a ha hmiss => absurd (h.stamped a ha).1 (Nat.not_le.mpr hmiss)⟩

/-! ## The cache -/

section

variable {c : Cache} {a : Added}

theorem Cache.Knows.update (h : c.Knows a) (isImmutable : Bool) (link : String)
    (kind : Option String) (version time : Int) :
    (c.updateLinkInfoCache isImmutable link kind version time).Knows a where
  writer := h.writer.trans (le_max_left _ _)
  kind := by
    intro k hk
    obtain ⟨t, hle, ht⟩ := h.kind k hk
    obtain ⟨t', hle', ht'⟩ := le_documentKindUpdateInfo c isImmutable link kind version time ht
    exact ⟨t', hle.trans hle', ht'⟩
  parent := by
    intro himm
    obtain ⟨t, hle, ht⟩ := h.parent himm
    obtain ⟨t', hle', ht'⟩ := le_immutableParentLinks c isImmutable link kind version time ht
    exact ⟨t', hle.trans hle', ht'⟩

theorem Cache.knows_recorded (c : Cache) (a : Added) :
    (c.updateLinkInfoCache a.update.isImmutable a.update.link a.update.kind a.update.version
      a.time).Knows a where
  writer := le_max_right _ _
  kind := by
    intro kind hkind
    rw [Option.mem_def.mp hkind]
    exact documentKindUpdateInfo_recorded c _ _ _ _
  parent := by
    intro himm
    rw [himm]
    exact immutableParentLinks_recorded c _ _ _ _

/-- Entries of links, the removal time and a later writer time do not matter. -/
theorem Cache.Knows.of_eq {c' : Cache} (h : c.Knows a)
    (hwriter : a.time ≤ c'.writerUpdateTimeMicros)
    (hkinds : c'.documentKindUpdateInfo = c.documentKindUpdateInfo)
    (hparents : c'.immutableParentLinks = c.immutableParentLinks) : c'.Knows a :=
  ⟨hwriter, by rw [hkinds]; exact h.kind, by rw [hparents]; exact h.parent⟩

/-- The entry that is recorded is not earlier than the one before. -/
theorem le_recordVersion (version time : Int) (e : DocumentUpdateInfo) :
    e.updateTimeMicros ≤ (recordVersion version time (some e)).updateTimeMicros := by
  unfold recordVersion
  dsimp only [Option.getD_some]
  split_ifs
  · exact le_max_left _ _
  · exact le_rfl

/-- An entry with an older version gets the time. -/
theorem le_recordVersion_time {version time : Int} {entry : Option DocumentUpdateInfo}
    (h : (entry.getD ⟨0, 0⟩).version ≤ version) :
    time ≤ (recordVersion version time entry).updateTimeMicros := by
  unfold recordVersion
  rw [if_pos h]
  exact le_max_right _ _

end

/-- A searcher that misses a document is not used again for a query that can match it, if
the cache has a time for it. -/
theorem needsNewSearcher_of_known {s : Shared} {ts : List Task} {a : Added} {scope : Scope}
    {time : Int} (hknows : s.cache.Knows a)
    (hlink : a.update.isImmutable = false → LinkTime s ts a)
    (hevicting : s.evicting = (ts.flatMap Task.evicted : List String))
    (hguard : ∀ selfLink, scope = .link selfLink →
      s.cache.updatesPerLink selfLink = none → selfLink ∉ s.evicting)
    (hmatch : scope.CanMatch a.update) (htime : time < a.time) :
    scope.needsNewSearcher s.cache time = true := by
  cases scope with
  | all =>
      simpa [Scope.needsNewSearcher, Cache.documentNeedsNewSearcher] using
        htime.trans_le hknows.writer
  | kinds kindScope =>
      obtain ⟨kind, hkind, hmem⟩ := hmatch
      obtain ⟨t, hle, ht⟩ := hknows.kind kind hkind
      have := le_kindsUpdateTime hmem ht
      simpa [Scope.needsNewSearcher, Cache.documentNeedsNewSearcher] using
        htime.trans_le (hle.trans this)
  | link selfLink =>
      obtain rfl : a.update.link = selfLink := hmatch
      show s.cache.linkNeedsNewSearcher a.update.link time = true
      unfold Cache.linkNeedsNewSearcher
      cases himm : a.update.isImmutable with
      | true =>
          obtain ⟨t, hle, ht⟩ := hknows.parent himm
          simp [ht, htime.le.trans hle]
      | false =>
          have hlink := hlink himm
          unfold LinkTime at hlink
          cases he : s.cache.updatesPerLink a.update.link with
          | some e =>
              rw [he] at hlink
              simp [htime.le.trans hlink]
          | none =>
              rw [he] at hlink
              rcases hlink with hremoval | ⟨t, ht, hcover⟩
              · simp [htime.trans_le hremoval]
              · refine absurd ?_ (hguard _ rfl he)
                rw [hevicting, Multiset.mem_coe]
                refine List.mem_flatMap.mpr ⟨t, ht, ?_⟩
                cases t with
                | stampRemoval links => exact hcover
                | storeRemoval links t => exact hcover.1
                | _ => exact hcover.elim

/-! ## One step -/

section

variable {s s' : Shared} {t : Task} {ts new : List Task}

theorem not_willCover_of_evicted {link : String} {time : Int} (h : t.evicted = []) :
    ¬ t.WillCover link time := by
  cases t with
  | stampRemoval links =>
      obtain rfl : links = [] := h
      exact List.not_mem_nil
  | storeRemoval links t =>
      obtain rfl : links = [] := h
      exact fun hcover => List.not_mem_nil hcover.1
  | _ => exact id

/-- The time for a link is kept if its entry is, the removal time is not earlier, and the
tasks that will store one are still there. -/
theorem LinkTime.keep {ts' : List Task} {a : Added} (h : LinkTime s ts a)
    (hlink : s'.cache.updatesPerLink a.update.link = s.cache.updatesPerLink a.update.link)
    (hremoval : s.cache.serviceRemovalDetectedTimeMicros ≤
      s'.cache.serviceRemovalDetectedTimeMicros)
    (hts : ∀ t ∈ ts, t.WillCover a.update.link a.time →
      a.time ≤ s'.cache.serviceRemovalDetectedTimeMicros ∨
        ∃ t ∈ ts', t.WillCover a.update.link a.time) : LinkTime s' ts' a := by
  unfold LinkTime at h ⊢
  rw [hlink]
  cases he : s.cache.updatesPerLink a.update.link with
  | some e =>
      rw [he] at h
      exact h
  | none =>
      rw [he] at h
      rcases h with h | ⟨t, ht, hcover⟩
      · exact Or.inl (h.trans hremoval)
      · exact hts t ht hcover

/-- The tasks after a step in which no removal time is taken or stored. -/
theorem willCover_rest {a : Added} (ht : t.evicted = []) :
    ∀ t' ∈ t :: ts, t'.WillCover a.update.link a.time →
      a.time ≤ s'.cache.serviceRemovalDetectedTimeMicros ∨
        ∃ t ∈ new ++ ts, t.WillCover a.update.link a.time := by
  intro t' ht' hcover
  rcases List.mem_cons.mp ht' with rfl | ht'
  · exact absurd hcover (not_willCover_of_evicted ht)
  · exact Or.inr ⟨t', List.mem_append_right _ ht', hcover⟩

theorem Inv.step (h : Inv s (t :: ts)) (hlater : Later s s') (hsound : Sound s')
    (hnew : ∀ t ∈ new, t.Ok s')
    (hlinks : ∀ a ∈ s'.recorded, a.update.isImmutable = false → LinkTime s' (new ++ ts) a)
    (hevicting : s'.evicting + t.evicted = s.evicting + (new.flatMap Task.evicted : List String)) :
    Inv s' (new ++ ts) where
  sound := hsound
  tasks := by
    intro t' ht'
    rcases List.mem_append.mp ht' with ht' | ht'
    · exact hnew t' ht'
    · exact (h.tasks t' (List.mem_cons_of_mem _ ht')).later hlater
  links := hlinks
  evicting := by
    rw [h.evicting, List.flatMap_cons, ← Multiset.coe_add, add_comm, add_assoc] at hevicting
    rw [List.flatMap_append, ← Multiset.coe_add, add_comm]
    exact add_left_cancel hevicting

/-- A step that leaves the cache alone. -/
theorem Inv.quiet (h : Inv s (t :: ts)) (hlater : Later s s') (hsound : Sound s')
    (hnew : ∀ t ∈ new, t.Ok s') (hcache : s'.cache = s.cache) (hrecorded : s'.recorded = s.recorded)
    (hevicting : s'.evicting = s.evicting) (ht : t.evicted = [])
    (hnone : new.flatMap Task.evicted = []) : Inv s' (new ++ ts) := by
  refine h.step hlater hsound hnew (fun a ha himm => ?_) ?_
  · rw [hrecorded] at ha
    exact (h.links a ha himm).keep (by rw [hcache]) (by rw [hcache]) (willCover_rest ht)
  · rw [hevicting, ht, hnone]

/-- Time passes, documents are added and updates complete. -/
theorem Sound.advance (h : Sound s) (hlater : Later s s') (hsearchers : s'.searchers = s.searchers)
    (hstamped : ∀ a ∈ s'.stamped, a.position ≤ s'.changes ∧ a.time ≤ s'.now)
    (hrecorded : s'.recorded = s.recorded) (hcompleted : s'.completed ⊆ s.recorded)
    (hknown : ∀ a ∈ s.recorded, s'.cache.Knows a) (hanswers : s'.answers = s.answers) :
    Sound s' where
  searchers := by
    rw [hsearchers]
    exact fun hx => (h.searchers hx).later hlater
  stamped := hstamped
  recorded := by
    rw [hrecorded]
    exact fun a ha => hlater.stamped (h.recorded ha)
  completed := by
    rw [hrecorded]
    exact hcompleted
  known := by
    rw [hrecorded]
    exact hknown
  reads := by
    unfold ReadsWrites
    rw [hanswers]
    exact h.reads

theorem Later.tick {time : Int} (ht : s.now < time) : Later s { s with now := time } :=
  .of_eq ht.le le_rfl rfl rfl

theorem Sound.tick (h : Sound s) {time : Int} (ht : s.now < time) :
    Sound { s with now := time } :=
  h.advance (.tick ht) rfl (fun a ha => ⟨(h.stamped a ha).1, (h.stamped a ha).2.trans ht.le⟩) rfl
    h.completed h.known rfl

theorem Later.change : Later s { s with changes := s.changes + 1 } :=
  .of_eq le_rfl (Nat.le_succ _) rfl rfl

theorem Sound.change (h : Sound s) : Sound { s with changes := s.changes + 1 } :=
  h.advance .change rfl
    (fun a ha => ⟨(h.stamped a ha).1.trans (Nat.le_succ _), (h.stamped a ha).2⟩) rfl
    h.completed h.known rfl

theorem Later.answer (s : Shared) (scope : Scope) (before : List Added) (x : Searcher) :
    Later s (s.answer scope before x) :=
  .of_eq le_rfl le_rfl rfl rfl

/-- A query gets a searcher that sees what it asks for. -/
theorem Sound.answer (h : Sound s) {scope : Scope} {before : List Added} {x : Searcher}
    (hx : ∀ a ∈ before, scope.CanMatch a.update → a.position ≤ x.opened) :
    Sound (s.answer scope before x) where
  searchers hs := (h.searchers hs).later (.answer s scope before x)
  stamped := h.stamped
  recorded := h.recorded
  completed := h.completed
  known := h.known
  reads := by
    intro answer hanswer
    rcases List.mem_cons.mp hanswer with rfl | hanswer
    · exact hx
    · exact h.reads answer hanswer

/-! ### Updates -/

/-- `updateLinkInfoCache`, with a condition where it makes an entry. -/
theorem LinkTime.update {a : Added} {isImmutable : Bool} {link : String} {kind : Option String}
    {version time : Int} (ha : a ∈ s.recorded) (himm : a.update.isImmutable = false)
    (h : LinkTime s (t :: ts) a) (ht : t.evicted = [])
    (hcache : s'.cache = s.cache.updateLinkInfoCache isImmutable link kind version time)
    (hguard : isImmutable = false → CoversLink s link version time) :
    LinkTime s' (new ++ ts) a := by
  have hremoval : s.cache.serviceRemovalDetectedTimeMicros ≤
      s'.cache.serviceRemovalDetectedTimeMicros := by simp [hcache]
  by_cases hlink : isImmutable = false ∧ a.update.link = link
  · obtain ⟨rfl, rfl⟩ := hlink
    unfold LinkTime at h ⊢
    rw [hcache, updateLinkInfoCache_link]
    dsimp only
    cases he : s.cache.updatesPerLink a.update.link with
    | some e =>
        rw [he] at h
        exact h.trans (le_recordVersion _ _ _)
    | none =>
        obtain ⟨hversion, hcovers⟩ := hguard rfl he
        exact (hcovers a ha rfl himm).trans (le_recordVersion_time hversion)
  · refine h.keep ?_ hremoval (willCover_rest ht)
    rw [hcache]
    cases isImmutable with
    | true => exact updateLinkInfoCache_immutable_link _ _ _ _ _ _
    | false => exact updateLinkInfoCache_link_other _ _ _ _ _ _ fun heq => hlink ⟨rfl, heq⟩

theorem Inv.updateCache {isImmutable : Bool} {link : String} {kind : Option String}
    {version time : Int} (h : Inv s (t :: ts)) (ht : t.evicted = [])
    (hguard : isImmutable = false → CoversLink s link version time)
    (hnew : ∀ t ∈ new, t.Ok { s with
      cache := s.cache.updateLinkInfoCache isImmutable link kind version time })
    (hnone : new.flatMap Task.evicted = []) :
    Inv { s with cache := s.cache.updateLinkInfoCache isImmutable link kind version time }
      (new ++ ts) := by
  have hlater : Later s { s with
      cache := s.cache.updateLinkInfoCache isImmutable link kind version time } :=
    .of_eq le_rfl le_rfl rfl rfl
  refine h.step hlater ?_ hnew (fun a ha himm => ?_) (by simp [ht, hnone])
  · exact h.sound.advance hlater rfl h.sound.stamped rfl h.sound.completed
      (fun a ha => (h.sound.known a ha).update _ _ _ _ _) rfl
  · exact LinkTime.update (s := s) ha himm (h.links a ha himm) ht rfl hguard

/-- A document gets its update time, which is after that of every searcher. -/
theorem Inv.stampUpdate {u : Update} {position : Nat} {time : Int}
    (h : Inv s (.stampUpdate u position :: ts)) (ht : s.now < time) :
    Inv { s with now := time, stamped := ⟨u, position, time⟩ :: s.stamped }
      ([.recordUpdate ⟨u, position, time⟩] ++ ts) := by
  have hsound := h.sound
  have hposition := h.tasks _ List.mem_cons_self
  have hlater : Later s { s with now := time, stamped := ⟨u, position, time⟩ :: s.stamped } := by
    refine ⟨ht.le, le_rfl, List.Subset.refl _, fun _ => List.mem_cons_of_mem _, fun a ha => ?_⟩
    rcases List.mem_cons.mp ha with rfl | ha
    · exact Or.inr ht
    · exact Or.inl ha
  refine h.quiet hlater (hsound.advance hlater rfl (fun a ha => ?_) rfl hsound.completed
    hsound.known rfl) (by simp [Task.Ok]) rfl rfl rfl rfl rfl
  rcases List.mem_cons.mp ha with rfl | ha
  · exact ⟨hposition, le_rfl⟩
  · exact ⟨(hsound.stamped a ha).1, (hsound.stamped a ha).2.trans ht.le⟩

theorem Inv.recordUpdate {a : Added} (h : Inv s (.recordUpdate a :: ts))
    (hguard : Covered s (.recordUpdate a) .go) :
    Inv { s with
      cache := s.cache.updateLinkInfoCache a.update.isImmutable a.update.link a.update.kind
        a.update.version a.time
      recorded := a :: s.recorded } ([.complete a] ++ ts) := by
  have ha : a ∈ s.stamped := h.tasks _ List.mem_cons_self
  have hlater : Later s { s with
      cache := s.cache.updateLinkInfoCache a.update.isImmutable a.update.link a.update.kind
        a.update.version a.time
      recorded := a :: s.recorded } :=
    ⟨le_rfl, le_rfl, fun _ => List.mem_cons_of_mem _, fun _ h => h, fun _ h => Or.inl h⟩
  refine h.step hlater ?_ ?_ (fun b hb himm => ?_) (by simp [Task.evicted])
  · exact
      { searchers := fun hx => (h.sound.searchers hx).later hlater
        stamped := h.sound.stamped
        recorded := List.cons_subset.mpr ⟨ha, h.sound.recorded⟩
        completed := fun b hb => List.mem_cons_of_mem _ (h.sound.completed hb)
        known := by
          intro b hb
          rcases List.mem_cons.mp hb with rfl | hb
          · exact s.cache.knows_recorded b
          · exact (h.sound.known b hb).update _ _ _ _ _
        reads := h.sound.reads }
  · intro t ht
    rw [List.mem_singleton.mp ht]
    exact List.mem_cons_self
  · rcases List.mem_cons.mp hb with rfl | hb
    · obtain ⟨hcovers, hversion⟩ := hguard himm
      unfold LinkTime
      dsimp only
      rw [himm, updateLinkInfoCache_link]
      refine le_recordVersion_time ?_
      cases he : s.cache.updatesPerLink b.update.link with
      | some e => exact hversion e he
      | none => exact (hcovers he).1
    · exact LinkTime.update (s := s) hb himm (h.links b hb himm) rfl rfl
        fun himm' => (hguard himm').1

/-- A forced update removes the entry of its link and sets the removal time under the same
lock. -/
theorem Inv.removeEntry {u : Update} {time : Int} (h : Inv s (.removeEntry u :: ts))
    (ht : s.now < time) :
    Inv { s with
      now := time
      cache := { s.cache.removeLinks [u.link] with
        writerUpdateTimeMicros := time, serviceRemovalDetectedTimeMicros := time } }
      ([.stampDelete u] ++ ts) := by
  have hlater : Later s { s with
      now := time
      cache := { s.cache.removeLinks [u.link] with
        writerUpdateTimeMicros := time, serviceRemovalDetectedTimeMicros := time } } :=
    .of_eq ht.le le_rfl rfl rfl
  have hpast : ∀ a ∈ s.recorded, a.time ≤ time := fun a ha =>
    ((h.sound.stamped a (h.sound.recorded ha)).2.trans_lt ht).le
  refine h.step hlater ?_ (by simp [Task.Ok]) (fun a ha himm => ?_)
    (by simp [Task.evicted])
  · refine h.sound.advance hlater rfl
      (fun a ha => ⟨(h.sound.stamped a ha).1, (h.sound.stamped a ha).2.trans ht.le⟩) rfl
      h.sound.completed (fun a ha => ?_) rfl
    exact (h.sound.known a ha).of_eq (hpast a ha) rfl rfl
  · have hlink := h.links a ha himm
    unfold LinkTime at hlink ⊢
    by_cases heq : a.update.link = u.link
    · simp [Cache.removeLinks, heq, hpast a ha]
    · cases he : s.cache.updatesPerLink a.update.link with
      | some e =>
          rw [he] at hlink
          simpa [Cache.removeLinks, heq, he] using hlink
      | none => simp [Cache.removeLinks, he, hpast a ha]

/-! ### Evictions -/

theorem mem_present {c : Cache} {links : List String} {link : String} :
    link ∈ c.present links ↔ link ∈ links ∧ (c.updatesPerLink link).isSome := by
  simp [Cache.present]

theorem Inv.evict {links : List String} {time : Int} (h : Inv s (.evict :: ts))
    (ht : s.now < time) :
    Inv { s with
      now := time
      cache := { s.cache.removeLinks links with writerUpdateTimeMicros := time }
      evicting := s.evicting + s.cache.present links }
      ((if s.cache.present links = [] then [] else [.stampRemoval (s.cache.present links)]) ++
        ts) := by
  have hlater : Later s { s with
      now := time
      cache := { s.cache.removeLinks links with writerUpdateTimeMicros := time }
      evicting := s.evicting + s.cache.present links } :=
    .of_eq ht.le le_rfl rfl rfl
  refine h.step hlater ?_ ?_ (fun a ha himm => ?_) ?_
  · refine h.sound.advance hlater rfl
      (fun a ha => ⟨(h.sound.stamped a ha).1, (h.sound.stamped a ha).2.trans ht.le⟩) rfl
      h.sound.completed (fun a ha => ?_) rfl
    exact (h.sound.known a ha).of_eq
      ((h.sound.stamped a (h.sound.recorded ha)).2.trans_lt ht).le rfl rfl
  · intro t ht
    split_ifs at ht with hnone
    · cases ht
    · rw [List.mem_singleton.mp ht]
      trivial
  · have hlink := h.links a ha himm
    by_cases hgone : a.update.link ∈ s.cache.present links
    · -- the entry is removed, and the removal time is still to come
      unfold LinkTime
      have hnone : s.cache.present links ≠ [] := List.ne_nil_of_mem hgone
      simp only [Cache.removeLinks, (mem_present.mp hgone).1, if_true, if_neg hnone]
      exact Or.inr ⟨_, List.mem_append_left _ (List.mem_singleton_self _), hgone⟩
    · refine hlink.keep ?_ le_rfl (willCover_rest rfl)
      show (if a.update.link ∈ links then none else _) = _
      by_cases hmem : a.update.link ∈ links
      · have hentry : s.cache.updatesPerLink a.update.link = none := by
          simpa [mem_present, hmem] using hgone
        rw [if_pos hmem, hentry]
      · rw [if_neg hmem]
  · split_ifs with hnone
    · simp [Task.evicted, hnone]
    · simp [Task.evicted]

theorem Inv.stampRemoval {links : List String} {time : Int} (h : Inv s (.stampRemoval links :: ts))
    (ht : s.now < time) : Inv { s with now := time } ([.storeRemoval links time] ++ ts) := by
  refine h.step (.tick ht) (h.sound.tick ht) (by simp [Task.Ok]) (fun a ha himm => ?_)
    (by simp [Task.evicted])
  refine (h.links a ha himm).keep rfl le_rfl fun t hmem hcover => Or.inr ?_
  rcases List.mem_cons.mp hmem with rfl | hmem
  · have htime := (h.sound.stamped a (h.sound.recorded ha)).2.trans ht.le
    exact ⟨_, List.mem_append_left _ (List.mem_singleton_self _), hcover, htime⟩
  · exact ⟨t, List.mem_append_right _ hmem, hcover⟩

theorem Inv.storeRemoval {links : List String} {time : Int}
    (h : Inv s (.storeRemoval links time :: ts))
    (hguard : s.cache.serviceRemovalDetectedTimeMicros ≤ time) :
    Inv { s with
      cache := { s.cache with serviceRemovalDetectedTimeMicros := time }
      evicting := s.evicting - links } ([] ++ ts) := by
  have hlater : Later s { s with
      cache := { s.cache with serviceRemovalDetectedTimeMicros := time }
      evicting := s.evicting - links } :=
    .of_eq le_rfl le_rfl rfl rfl
  refine h.step hlater ?_ (by simp) (fun a ha himm => ?_) ?_
  · exact h.sound.advance hlater rfl h.sound.stamped rfl h.sound.completed
      (fun a ha => (h.sound.known a ha).of_eq (h.sound.known a ha).writer rfl rfl) rfl
  · refine (h.links a ha himm).keep rfl hguard fun t hmem hcover => ?_
    rcases List.mem_cons.mp hmem with rfl | hmem
    · exact Or.inl hcover.2
    · exact Or.inr ⟨t, hmem, hcover⟩
  · have hle : (links : Multiset String) ≤ s.evicting := by
      rw [h.evicting, List.flatMap_cons, ← Multiset.coe_add]
      exact Multiset.le_add_right _ _
    simpa [Task.evicted] using tsub_add_cancel_of_le hle

/-! ### Queries -/

theorem Inv.decide {threadId : Nat} {scope : Scope} {before : List Added} {time : Int}
    {r : Shared × List Task} (h : Inv s (.decide threadId scope before time :: ts))
    (hguard : Covered s (.decide threadId scope before time) .go)
    (hfire : fire s (.decide threadId scope before time) .go = some r) :
    Inv r.1 (r.2 ++ ts) := by
  obtain ⟨hbefore, htime⟩ := h.tasks _ List.mem_cons_self
  simp only [fire] at hfire
  split at hfire
  · cases hfire
    exact h.quiet (.refl s) h.sound (by simpa [Task.Ok] using ⟨hbefore, htime⟩) rfl rfl rfl rfl rfl
  · rename_i x hx
    have htimely := h.sound.searchers hx
    split_ifs at hfire with hneeds
    · cases hfire
      exact h.quiet (.refl s) h.sound
        (by simpa [Task.Ok] using ⟨hbefore, htime, htimely⟩) rfl rfl rfl rfl rfl
    · cases hfire
      refine h.quiet (.answer s scope before x) (h.sound.answer fun a ha hmatch => ?_)
        (by simp [Task.Ok]) rfl rfl rfl rfl rfl
      have harec := hbefore ha
      by_contra hmiss
      refine hneeds (needsNewSearcher_of_known (h.sound.known a harec) (h.links a harec) h.evicting
        (fun selfLink heq => ?_) hmatch
        (htimely.misses a (h.sound.recorded harec) (Nat.lt_of_not_le hmiss)))
      subst heq
      exact hguard

theorem Inv.openReader {threadId : Nat} {scope : Scope} {before : List Added} {time : Int}
    {old : Option Searcher} {r : Shared × List Task}
    (h : Inv s (.openReader threadId scope before time old :: ts))
    (hfire : fire s (.openReader threadId scope before time old) .go = some r) :
    Inv r.1 (r.2 ++ ts) := by
  obtain ⟨hbefore, htime, -⟩ := h.tasks _ List.mem_cons_self
  have hopened : ∀ a ∈ before, a.position ≤ s.changes := fun a ha =>
    (h.sound.stamped a (h.sound.recorded (hbefore ha))).1
  have hput : Inv s ([.put threadId scope before ⟨s.changes, time⟩] ++ ts) := by
    refine h.quiet (.refl s) h.sound ?_ rfl rfl rfl rfl rfl
    intro t ht
    rw [List.mem_singleton.mp ht]
    exact ⟨h.sound.timely htime, hopened⟩
  simp only [fire] at hfire
  split at hfire
  · cases hfire
    exact hput
  · rename_i x
    split_ifs at hfire with hcurrent
    · cases hfire
      refine h.quiet (.answer s scope before x) (h.sound.answer fun a ha _ => ?_)
        (by simp [Task.Ok]) rfl rfl rfl rfl rfl
      rw [hcurrent]
      exact hopened a ha
    · cases hfire
      exact hput

theorem Inv.put {threadId : Nat} {scope : Scope} {before : List Added} {x : Searcher}
    (h : Inv s (.put threadId scope before x :: ts)) :
    Inv ({ s with searchers := Function.update s.searchers threadId (some x) }.answer scope
      before x) ([.results] ++ ts) := by
  obtain ⟨htimely, hopened⟩ := h.tasks _ List.mem_cons_self
  have hsound : Sound { s with searchers := Function.update s.searchers threadId (some x) } :=
    { searchers := by
        intro threadId' x' hx'
        by_cases heq : threadId' = threadId
        · subst heq
          obtain rfl : x = x' := by simpa using hx'
          exact ⟨htimely.past, htimely.misses⟩
        · have hold := h.sound.searchers (by simpa [heq] using hx')
          exact ⟨hold.past, hold.misses⟩
      stamped := h.sound.stamped
      recorded := h.sound.recorded
      completed := h.sound.completed
      known := h.sound.known
      reads := h.sound.reads }
  refine h.quiet ?_ (hsound.answer fun a ha _ => hopened a ha) (by simp [Task.Ok]) rfl rfl rfl rfl
    rfl
  exact .of_eq le_rfl le_rfl rfl rfl

/-! ### All steps -/

theorem tick_map {f : Shared → Shared × List Task} {time : Int} {r : Shared × List Task}
    (h : (s.tick time).map f = some r) : s.now < time ∧ f { s with now := time } = r := by
  unfold Shared.tick at h
  split_ifs at h with ht
  · exact ⟨ht, Option.some.inj h⟩
  · cases h

theorem Inv.fire {k : Answer} {r : Shared × List Task} (hok : Covered s t k)
    (hfire : fire s t k = some r) (h : Inv s (t :: ts)) : Inv r.1 (r.2 ++ ts) := by
  have hsound := h.sound
  have htask := h.tasks t List.mem_cons_self
  -- every case is a lemma above; `quiet` serves the steps that leave the cache alone
  cases t with
  | deleteDocuments u =>
      cases k with
      | go =>
          cases hfire
          exact h.quiet .change hsound.change (by simp [Task.Ok]) rfl rfl rfl rfl rfl
      | _ => cases hfire
  | removeEntry u =>
      cases k with
      | time time =>
          obtain ⟨ht, rfl⟩ := tick_map hfire
          exact h.removeEntry ht
      | _ => cases hfire
  | stampDelete u =>
      cases k with
      | time time =>
          obtain ⟨ht, rfl⟩ := tick_map hfire
          exact h.quiet (.tick ht) (hsound.tick ht) (by simp [Task.Ok]) rfl rfl rfl rfl rfl
      | _ => cases hfire
  | recordDelete u time =>
      cases k with
      | description isImmutable =>
          cases hfire
          refine h.updateCache rfl (fun himm => ?_) (by simp [Task.Ok]) rfl
          subst himm
          exact hok
      | _ => cases hfire
  | addDocument u =>
      cases k with
      | go =>
          cases hfire
          exact h.quiet .change hsound.change (by simp [Task.Ok]) rfl rfl rfl rfl rfl
      | _ => cases hfire
  | stampUpdate u position =>
      cases k with
      | time time =>
          obtain ⟨ht, rfl⟩ := tick_map hfire
          exact h.stampUpdate ht
      | _ => cases hfire
  | recordUpdate a =>
      cases k with
      | go =>
          cases hfire
          exact h.recordUpdate hok
      | _ => cases hfire
  | complete a =>
      cases k with
      | go =>
          cases hfire
          have hlater : Later s { s with completed := a :: s.completed } :=
            .of_eq le_rfl le_rfl rfl rfl
          exact h.quiet hlater (hsound.advance hlater rfl hsound.stamped rfl
            (List.cons_subset.mpr ⟨htask, hsound.completed⟩) hsound.known rfl) (by simp)
            rfl rfl rfl rfl rfl
      | _ => cases hfire
  | evict =>
      cases k with
      | go =>
          cases hfire
          exact h.quiet (.refl s) hsound (by simp) rfl rfl rfl rfl rfl
      | detached links time =>
          obtain ⟨ht, rfl⟩ := tick_map hfire
          exact h.evict ht
      | _ => cases hfire
  | stampRemoval links =>
      cases k with
      | time time =>
          obtain ⟨ht, rfl⟩ := tick_map hfire
          exact h.stampRemoval ht
      | _ => cases hfire
  | storeRemoval links time =>
      cases k with
      | go =>
          cases hfire
          exact h.storeRemoval hok
      | _ => cases hfire
  | stampQuery threadId scope before =>
      cases k with
      | time time =>
          obtain ⟨ht, rfl⟩ := tick_map hfire
          refine h.quiet (.tick ht) (hsound.tick ht) (fun t ht' => ?_) rfl rfl rfl rfl rfl
          rw [List.mem_singleton.mp ht']
          exact ⟨htask, le_rfl⟩
      | _ => cases hfire
  | decide threadId scope before time =>
      cases k with
      | go => exact h.decide hok hfire
      | _ => cases hfire
  | openReader threadId scope before time old =>
      cases k with
      | go => exact h.openReader hfire
      | _ => cases hfire
  | put threadId scope before x =>
      cases k with
      | go =>
          cases hfire
          exact h.put
      | _ => cases hfire
  | results =>
      cases k with
      | go =>
          cases hfire
          exact h.quiet (.refl s) hsound (by simp) rfl rfl rfl rfl rfl
      | lookup link version updateTime =>
          cases hfire
          exact h.updateCache rfl (fun _ => hok) (by simp [Task.Ok]) rfl
      | _ => cases hfire

theorem Inv.input (i : Input) (h : Inv s ts) : Inv (input s i).1 ((input s i).2 ++ ts) := by
  have hkeep : ∀ {t : Task}, t.Ok s → t.evicted = [] → Inv s ([t] ++ ts) := by
    intro t hok hnone
    refine ⟨h.sound, ?_, fun a ha himm => ?_, ?_⟩
    · simpa using ⟨hok, h.tasks⟩
    · exact (h.links a ha himm).keep rfl le_rfl fun t' ht' hcover =>
        Or.inr ⟨t', List.mem_append_right _ ht', hcover⟩
    · simpa [hnone] using h.evicting
  cases i with
  | update u =>
      show Inv s ([if u.isForced then .deleteDocuments u else .addDocument u] ++ ts)
      split_ifs
      · exact hkeep trivial rfl
      · exact hkeep trivial rfl
  | evict => exact hkeep trivial rfl
  | query threadId scope =>
      exact hkeep (t := .stampQuery threadId scope s.completed) h.sound.completed rfl

end

/-! ## Runs -/

theorem inv_start (now : Int) (changes : Nat) (cache : Cache) :
    Inv (start now changes cache).shared (start now changes cache).tasks where
  sound :=
    { searchers := by simp [start]
      stamped := by simp [start]
      recorded := by simp [start]
      completed := by simp [start]
      known := by simp [start]
      reads := by simp [ReadsWrites, start] }
  tasks := by simp [start]
  links := by simp [start]
  evicting := rfl

theorem inv_reaches {now : Int} {changes : Nat} {cache : Cache} {p : Pool Shared Task}
    (h : machine.Reaches Covered (start now changes cache) p) : Inv p.shared p.tasks := by
  refine Machine.invariant Inv h (fun {s ts ts'} hperm hinv => ?_) (inv_start now changes cache)
    (fun i hinv => hinv.input i) fun hok hfire hinv => hinv.fire hok hfire
  refine ⟨hinv.sound, fun t ht => hinv.tasks t (hperm.mem_iff.mpr ht), fun a ha himm => ?_, ?_⟩
  · exact (hinv.links a ha himm).keep rfl le_rfl fun t ht hcover =>
      Or.inr ⟨t, hperm.mem_iff.mp ht, hcover⟩
  · rw [hinv.evicting, Multiset.coe_eq_coe]
    exact hperm.flatMap_right _

/-- **A query gets a searcher that was opened after the updates it can match**, in every run
in which no time for a link is lost. -/
theorem searcher_reads_writes {now : Int} {changes : Nat} {cache : Cache} {p : Pool Shared Task}
    (h : machine.Reaches Covered (start now changes cache) p) : ReadsWrites p.shared :=
  (inv_reaches h).sound.reads

/-- A service whose document is written and read again by the thread that has an older
searcher. -/
def noteUpdate : Update := ⟨"/notes/a", some "note", 0, false, false⟩

/-- The thread opens a searcher, the document is added, and the thread asks again. -/
theorem searcher_reads_writes_again : ∃ p, machine.Reaches Covered (start 0 0 {}) p ∧
    ReadsWrites p.shared ∧
      p.shared.answers.head? = some ⟨.link "/notes/a", [⟨noteUpdate, 1, 2⟩], ⟨1, 3⟩⟩ := by
  obtain ⟨p, hp⟩ : ∃ p, machine.exec Covered (start 0 0 {})
      [.input (.query 1 .all), .fire 0 (.time 1), .fire 0 .go, .fire 0 .go, .fire 0 .go,
        .input (.update noteUpdate), .fire 0 .go, .fire 0 (.time 2), .fire 0 .go, .fire 0 .go,
        .input (.query 1 (.link "/notes/a")), .fire 0 (.time 3), .fire 0 .go, .fire 0 .go,
        .fire 0 .go] = some p := ⟨_, rfl⟩
  have hreach := Machine.reaches_of_exec hp
  refine ⟨p, hreach, searcher_reads_writes hreach, ?_⟩
  cases hp
  rfl

/-- The entry of the link is evicted, and the thread asks for it before the removal time is
stored: it keeps its searcher, which does not have the document. -/
theorem searcher_misses_evicted_link : ¬ ∀ (now : Int) (changes : Nat) (cache : Cache)
    (p : Pool Shared Task), machine.Reaches (fun _ _ _ => True) (start now changes cache) p →
      ReadsWrites p.shared := by
  intro h
  obtain ⟨p, hp⟩ : ∃ p, machine.exec (fun _ _ _ => True) (start 0 0 {})
      [.input (.query 1 .all), .fire 0 (.time 1), .fire 0 .go, .fire 0 .go, .fire 0 .go,
        .fire 0 .go, .input (.update noteUpdate), .fire 0 .go, .fire 0 (.time 2), .fire 0 .go,
        .fire 0 .go, .input .evict, .fire 0 (.detached ["/notes/a"] 3),
        .input (.query 1 (.link "/notes/a")), .fire 0 (.time 4), .fire 0 .go] = some p := ⟨_, rfl⟩
  have hreads := h _ _ _ _ (Machine.reaches_of_exec hp)
  have hanswer : p.shared.answers.head? =
      some ⟨.link "/notes/a", [⟨noteUpdate, 1, 2⟩], ⟨0, 1⟩⟩ := by
    cases hp
    rfl
  have := hreads _ (List.mem_of_mem_head? hanswer) _ (List.mem_singleton_self _) rfl
  simp at this

end Xenon.Index
