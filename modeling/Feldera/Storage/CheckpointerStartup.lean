import Feldera.Storage.CheckpointerSafety

/-!
`Checkpointer::new` keeps what the listed checkpoints need, in whatever way it ends. If it
succeeds, and there is a listed checkpoint, it leaves nothing else behind, apart from what could
not be deleted.
-/

namespace Feldera.Storage

open Crash Directory Triple List

variable {s : State} {d : Directory}

structure Starting (d : Directory) (s : State) : Prop where
  reserved : ∀ r, s.storage.find (.reserved r) = d.find (.reserved r)
  needed : ∀ n, d.Needs d.stored n → s.storage.find n = d.find n
  absent : ∀ n, d.find n = none → s.storage.find n = none

theorem Starting.stored_eq (h : Starting d s) : s.storage.stored = d.stored := by
  rw [Directory.stored, Directory.stored, h.reserved]

theorem Starting.kept (h : Starting d s) (hd : d.Kept d.stored) :
    s.storage.Kept s.storage.stored := by
  rw [h.stored_eq]
  exact hd.congr h.needed

def Swept (d : Directory) (s : State) : Prop :=
  ∀ n e, d.find n = some e → (∀ r, n ≠ .reserved r) → ¬d.Needs d.stored n →
    (n.isFeldera || e.isDirectory) = true → s.storage.find n = none ∨ n ∈ s.warnings

variable {E : StorageError → State → Prop}

theorem gatherAll_triple {C : State → Prop} (hC : C s) (l : List Metadata) :
    Triple (fun s' => s' = s) (gatherAll l)
      (fun names s' => s' = s ∧ ∀ n, n ∈ names ↔ s.storage.Needs l n) E C := by
  induction l with
  | nil =>
    refine pure fun s' hs => ⟨hs, fun n => ?_⟩
    simp [Directory.Needs]
  | cons c l ih =>
    refine bind (Q := fun names s' => s' = s ∧ names = s.storage.batchesOf c.uuid) ?_
      fun batches => of_eq ?_
    · have hgather := gatherBatches_triple s (E := fun _ s' => s' = s) (fun _ => rfl) hC c.uuid
      refine handle (hgather.post ?_) ?_
      · rintro names s' ⟨rfl, -, hnames⟩
        exact ⟨rfl, hnames⟩
      · exact fun _ => crash fun s' hs => hs ▸ hC
    · rintro s' ⟨rfl, rfl⟩
      refine bind ih fun rest => pure ?_
      rintro s'' ⟨rfl, hrest⟩
      refine ⟨rfl, fun n => ?_⟩
      rw [cons_append, mem_cons, mem_append, hrest n]
      unfold Directory.Needs
      simp only [mem_cons, exists_eq_or_imp]
      exact or_assoc.symm

theorem mem_reservedNames (n : Name) : n ∈ reservedNames ↔ ∃ r, n = .reserved r := by
  constructor
  · intro hn
    simp only [reservedNames, mem_cons, not_mem_nil, or_false] at hn
    rcases hn with rfl | rfl | rfl | rfl | rfl | rfl | rfl
    all_goals exact ⟨_, rfl⟩
  · rintro ⟨r, rfl⟩
    cases r
    all_goals simp [reservedNames]

/-- An entry is deleted, or a warning is logged, if nothing needs it. -/
theorem sweep_triple {inUse : List Name}
    (hinUse : ∀ n, n ∈ inUse ↔ (∃ r, n = .reserved r) ∨ d.Needs d.stored n) (p : Name × Entry)
    (hs : Starting d s) :
    Triple (fun s' => s' = s) (sweep inUse p)
      (fun _ s' => s'.checkpointList = s.checkpointList ∧ Starting d s' ∧
        (p.1 ∉ inUse → (p.1.isFeldera || p.2.isDirectory) = true →
          s'.storage.find p.1 = none ∨ p.1 ∈ s'.warnings) ∧
        ∀ n, s.storage.find n = none ∨ n ∈ s.warnings →
          s'.storage.find n = none ∨ n ∈ s'.warnings) E (Starting d) := by
  unfold sweep
  split
  · next hunused =>
    obtain ⟨hnot, -⟩ := hunused
    rw [hinUse, not_or] at hnot
    obtain ⟨hreserved, hneeds⟩ := hnot
    have hkeep : ∀ d' : Directory, (∀ m, m ≠ p.1 → d'.find m = s.storage.find m) →
        (s.storage.find p.1 = none → d'.find p.1 = none) → Starting d (s.onStorage d') := by
      intro d' hd' hnone
      refine ⟨fun r => ?_, fun n hn => ?_, fun n hn => ?_⟩
      · exact (hd' _ fun heq => hreserved ⟨r, heq.symm⟩).trans (hs.reserved r)
      · exact (hd' n fun heq => hneeds (heq ▸ hn)).trans (hs.needed n hn)
      · by_cases heq : n = p.1
        · rw [heq] at hn ⊢
          exact hnone (hs.absent _ hn)
        · exact (hd' n heq).trans (hs.absent n hn)
    have hpart : ∀ count, Starting d (s.onStorage (s.storage.dropChildren p.1 count)) := by
      intro count
      exact hkeep _ (fun m hm => find_dropChildren_of_ne count hm)
        fun hnone => find_dropChildren_eq_none count hnone
    have herase : Starting d (s.onStorage (s.storage.erase p.1)) := by
      refine hkeep _ (fun m hm => ?_) fun _ => ?_
      · rw [find_erase, if_neg hm]
      · rw [find_erase, if_pos rfl]
    have hdelete := deleteRecursive_triple (Q := fun _ s' => s' = s.onStorage (s.storage.erase p.1))
      (E := fun _ s' => ∃ count, s' = s.onStorage (s.storage.dropChildren p.1 count)) s p.1 rfl
      (fun _ count => ⟨count, rfl⟩) hpart
    refine handle (hdelete.post ?_) fun e => modify ?_
    · rintro _ _ rfl
      refine ⟨rfl, herase, fun _ _ => .inl ?_, fun n hn => hn.imp_left fun hnone => ?_⟩
      · rw [State.onStorage, find_erase, if_pos rfl]
      · rw [State.onStorage, find_erase]
        split
        · rfl
        · exact hnone
    · rintro _ ⟨count, rfl⟩
      obtain ⟨hr, hn, ha⟩ := hpart count
      refine ⟨rfl, ⟨hr, hn, ha⟩, fun _ _ => .inr mem_cons_self, fun n hn => ?_⟩
      rcases hn with hnone | hwarned
      · exact .inl (find_dropChildren_eq_none count hnone)
      · exact .inr (mem_cons_of_mem _ hwarned)
  · next hused =>
    refine pure ?_
    rintro _ rfl
    exact ⟨rfl, hs, fun hnot hgone => absurd ⟨hnot, hgone⟩ hused, fun _ h => h⟩

variable (len : Content → Nat)

theorem gcStartup_triple (hs : s.storage = d) (hlist : s.checkpointList = d.stored)
    (hE : ∀ e, E e s) :
    Triple (fun s' => s' = s) (gcStartup len)
      (fun _ s' => s'.checkpointList = d.stored ∧ Starting d s' ∧ Swept d s') E
      (Starting d) := by
  have hstart : Starting d s := by
    rw [← hs]
    exact ⟨fun _ => rfl, fun _ _ => rfl, fun _ h => h⟩
  refine bind_get (bind (gatherAll_triple hstart s.checkpointList) fun batches =>
    of_eq ?_)
  rintro s ⟨rfl, hbatches⟩
  rw [hs, hlist] at hbatches
  have hinUse : ∀ n, n ∈ reservedNames ++ batches ↔
      (∃ r, n = .reserved r) ∨ d.Needs d.stored n := by
    intro n
    rw [mem_append, mem_reservedNames, hbatches]
  refine readOp_bind hE hstart fun entries hentries => ?_
  obtain rfl : s.storage = entries := Except.ok.inj hentries
  refine bind (Q := fun _ s' => s'.checkpointList = d.stored ∧ Starting d s' ∧ Swept d s')
    ?_ fun _ => pure fun _ h => h
  refine (each (l := s.storage) (I := fun pre s' => s'.checkpointList = d.stored ∧ Starting d s' ∧
    ∀ p ∈ pre, p.1 ∉ reservedNames ++ batches → (p.1.isFeldera || p.2.isDirectory) = true →
      s'.storage.find p.1 = none ∨ p.1 ∈ s'.warnings) ?_).conseq ?_ ?_ (fun _ _ h => h)
        fun _ h => h
  · rintro pre p post -
    refine of_eq fun s' hs' => ?_
    obtain ⟨hl, hstarting, hdone⟩ := hs'
    refine (sweep_triple hinUse p hstarting).post ?_
    rintro _ s'' ⟨hl', hstarting', hswept, hmono⟩
    refine ⟨hl'.trans hl, hstarting', fun q hq hnot hgone => ?_⟩
    rcases mem_append.mp hq with hq | hq
    · exact hmono q.1 (hdone q hq hnot hgone)
    · obtain rfl := mem_singleton.mp hq
      exact hswept hnot hgone
  · rintro _ rfl
    exact ⟨hlist, hstart, nofun⟩
  · rintro _ s' ⟨hl, hstarting, hdone⟩
    refine ⟨hl, hstarting, fun n e hfind hreserved hneeds hgone => ?_⟩
    have hmem := mem_of_find hfind
    rw [← hs] at hmem
    refine hdone (n, e) hmem (fun hin => ?_) hgone
    rcases (hinUse n).mp hin with ⟨r, hr⟩ | hn
    · exact hreserved r hr
    · exact hneeds hn

theorem newCheckpointer_triple (fingerprint : Nat) (mustMatch : Bool) (hs : s.storage = d) :
    Triple (fun s' => s' = s) (newCheckpointer len fingerprint mustMatch)
      (fun _ s' => s'.checkpointList = d.stored ∧ Starting d s' ∧ (d.stored ≠ [] → Swept d s') ∧
        (d.stored = [] → s'.storage = d))
      (fun _ => Starting d) (Starting d) := by
  have hstart : ∀ l, Starting d { s with checkpointList := l } := by
    rw [← hs]
    exact fun l => ⟨fun _ => rfl, fun _ _ => rfl, fun _ h => h⟩
  refine readOp_bind (fun _ => hstart s.checkpointList) (hstart s.checkpointList)
    fun checkpoints hread => ?_
  have hstored : checkpoints = d.stored := by
    rw [Directory.stored, ← hs]
    split at hread
    · next heq =>
      rw [heq]
      exact (Except.ok.inj hread).symm
    · cases hread
    · cases hread
    · next heq =>
      rw [heq]
      exact (Except.ok.inj hread).symm
  subst hstored
  refine bind_modify (bind (Q := fun _ s' => s'.checkpointList = d.stored ∧ Starting d s' ∧
    (d.stored ≠ [] → Swept d s') ∧ (d.stored = [] → s'.storage = d)) (bind_get ?_) fun _ => ?_)
  · split
    · next hne =>
      refine (gcStartup_triple (s := { s with checkpointList := d.stored }) len hs rfl
        fun _ => hstart _).post ?_
      rintro _ s' ⟨hl, hstarting, hswept⟩
      exact ⟨hl, hstarting, fun _ => hswept, fun hnil => absurd hnil hne⟩
    · next hnil =>
      refine readOp_bind (fun _ => hstart _) (hstart _) fun entries _ => pure ?_
      rintro _ rfl
      exact ⟨rfl, hstart _, fun hne => absurd hne hnil, fun _ => hs⟩
  · split
    · exact fail fun _ h => h.2.1
    · exact pure fun _ h => h

end Feldera.Storage
