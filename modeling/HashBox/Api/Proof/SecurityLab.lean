import HashBox.Api.SecurityLab
import HashBox.Lib.Runs

/-!
# The two accounts of a Security Lab run

A run that every reply but those about the chunks lets pass (`OtherwisePasses`) is the only kind
that returns with `passed`, and then the only events with status `breach` are those of chunks that
are not there: `run_spec`, from one lemma for each phase. `verdict_sound` is the iff that follows.
-/

namespace HashBox.Api

open Vaultclient

def SecurityLabRun.Clean (s : SecurityLabRun) : Prop := ∀ e ∈ s.events, e.status ≠ .breach

@[simp] theorem SecurityLabRun.clean_send {s : SecurityLabRun} {phase : SecurityPhase}
    {step title detail : String} {status : SecurityStatus} {data : List (String × LabValue)} :
    (s.send phase step status title detail data).Clean ↔ s.Clean ∧ status ≠ .breach := by
  simp only [Clean, send, List.forall_mem_append, List.forall_mem_singleton]

@[simp] theorem SecurityLabRun.clean_summary {s : SecurityLabRun} {summary : SecurityLabSummary} :
    SecurityLabRun.Clean { s with summary } ↔ s.Clean :=
  Iff.rfl

@[simp] theorem SecurityLabRun.summary_send (s : SecurityLabRun) (phase : SecurityPhase)
    (step title detail : String) (status : SecurityStatus) (data : List (String × LabValue)) :
    (s.send phase step status title detail data).summary = s.summary :=
  rfl

namespace SecurityLabReplies

variable (r : SecurityLabReplies)

def chunkExists (i : Nat) (chunkHash : String) : Bool :=
  (r.getChunkStatus i chunkHash).toOption.any (·.«exists»)

def attackBlocked (manifestID : String) (atk : Attack) : Bool :=
  (r.attemptManifestMutation atk.method manifestID atk.body).toOption.any MutationAttempt.blocked

/-- Every chunk of a list is there; `i` chunks were asked for before. -/
def ChunksExist (i : Nat) (chunkHashes : List String) : Prop :=
  ∀ k chunkHash, chunkHashes[k]? = some chunkHash → r.chunkExists (i + k) chunkHash

/-- All replies but those about the chunks let a run with this upload pass; `proof` is the manifest
that lists the chunks. -/
structure OtherwisePasses (o : UploadOutcome) (proof : Vaultclient.ManifestRecord) : Prop where
  runID : ∃ runID, r.newSecurityRunID = .ok runID
  upload : r.upload r.demoName "text/plain" r.demoContent = .ok o
  softDelete : r.softDelete o.fileID = .ok ()
  permanentDelete : r.permanentDelete o.fileID = .ok ()
  gone : ∃ e, r.detail o.fileID = .error e
  intact : r.getManifest 1 o.manifestID = .ok proof
  blocked : ∀ atk ∈ attacks, r.attackBlocked o.manifestID atk
  identical : r.downloadObject o.manifestID = .ok (.ok r.demoContent)
  unchanged : ∃ before after, r.getManifest 0 o.manifestID = .ok before ∧
    r.getManifest 2 o.manifestID = .ok after ∧ before.fileHash = after.fileHash ∧
    before.chunkCount = after.chunkCount ∧ after.immutable

/-! ## The phases -/

variable {r} {s : SecurityLabRun} {o : UploadOutcome} {manifestID fileID : String}

theorem phaseBefore_spec (s : SecurityLabRun) :
    match r.phaseBefore s with
    | .ok (o, s') =>
      r.upload r.demoName "text/plain" r.demoContent = .ok o ∧ (s'.Clean ↔ s.Clean) ∧
        ∃ m, r.getManifest 0 o.manifestID = .ok m ∧ s'.summary = { s.summary with
          demoFileName := r.demoName
          contentHashBefore := r.sha256Hex r.demoContent
          manifestID := o.manifestID
          fileHashBefore := m.fileHash
          chunkCountBefore := m.chunkCount
          immutableBefore := m.immutable }
    | .error _ => ∀ o, r.upload r.demoName "text/plain" r.demoContent = .ok o →
        ∀ m, r.getManifest 0 o.manifestID ≠ .ok m := by
  unfold phaseBefore
  cases hu : r.upload r.demoName "text/plain" r.demoContent with
  | error e => simp
  | ok o =>
    cases hm : r.getManifest 0 o.manifestID with
    | error e => simp [hm]
    | ok m => simp [hm]

theorem phaseAttackApp_spec (fileID : String) (s : SecurityLabRun) :
    match r.phaseAttackApp fileID s with
    | .ok s' =>
      r.softDelete fileID = .ok () ∧ r.permanentDelete fileID = .ok () ∧
        (((∃ e, r.detail fileID = .error e) ∧ (s'.Clean ↔ s.Clean) ∧
            s'.summary = { s.summary with appLayerCompromised := true }) ∨
          (r.detail fileID = .ok () ∧ s'.summary = s.summary))
    | .error _ => r.softDelete fileID ≠ .ok () ∨ r.permanentDelete fileID ≠ .ok () := by
  unfold phaseAttackApp
  cases hs : r.softDelete fileID with
  | error e => simp
  | ok _ =>
    cases hp : r.permanentDelete fileID with
    | error e => simp
    | ok _ =>
      cases hd : r.detail fileID with
      | error e => simp
      | ok _ => simp

/-- **The iteration over the chunks** emits a breach for each one that is not there. -/
theorem verifyChunks_spec (chunkHashes : List String) : ∀ (i n : Nat) (s : SecurityLabRun),
    (r.verifyChunks i n chunkHashes s).2.summary = s.summary ∧
      ((r.verifyChunks i n chunkHashes s).2.Clean ↔ s.Clean ∧ r.ChunksExist i chunkHashes) := by
  induction chunkHashes with
  | nil => intro i n s; simp [verifyChunks, ChunksExist]
  | cons c cs ih =>
    intro i n s
    have hcons : r.ChunksExist i (c :: cs) ↔ r.chunkExists i c ∧ r.ChunksExist (i + 1) cs := by
      constructor
      · intro h
        refine ⟨h 0 c rfl, fun k c' hk => ?_⟩
        rw [Nat.add_assoc, Nat.add_comm 1 k]
        exact h (k + 1) c' hk
      · rintro ⟨h0, hs⟩ k c' hk
        cases k with
        | zero => cases hk; exact h0
        | succ k =>
          rw [Nat.add_comm k 1, ← Nat.add_assoc]
          exact hs k c' hk
    rw [hcons]
    unfold verifyChunks chunkExists
    cases r.getChunkStatus i c with
    | error e => simp [ih, Except.toOption]
    | ok status => cases h : status.«exists» <;> simp [ih, h, Except.toOption]

theorem phaseProof_spec (manifestID : String) (s : SecurityLabRun) :
    match r.phaseProof manifestID s with
    | .ok s' => ∃ m n, r.getManifest 1 manifestID = .ok m ∧
        (s'.Clean ↔ s.Clean ∧ r.ChunksExist 0 m.chunkHashes) ∧
        s'.summary = { s.summary with vaultManifestIntact := true, chunksVerified := n }
    | .error _ => ∀ m, r.getManifest 1 manifestID ≠ .ok m := by
  unfold phaseProof
  cases hm : r.getManifest 1 manifestID with
  | error e => simp
  | ok m => simp [verifyChunks_spec]

/-- **The iteration over the attacks** counts those that were blocked, and emits a breach for each
other one. -/
theorem foldl_attack_spec (manifestID : String) (atks : List Attack) : ∀ s : SecurityLabRun,
    (atks.foldl (r.attack manifestID) s).summary = { s.summary with
        udsAttacksAttempted := s.summary.udsAttacksAttempted + atks.length
        udsAttacksBlocked :=
          s.summary.udsAttacksBlocked + atks.countP (r.attackBlocked manifestID) } ∧
      ((atks.foldl (r.attack manifestID) s).Clean ↔
        s.Clean ∧ ∀ atk ∈ atks, r.attackBlocked manifestID atk) := by
  induction atks with
  | nil => intro s; simp
  | cons atk atks ih =>
    intro s
    have hone : (r.attack manifestID s atk).summary = { s.summary with
          udsAttacksAttempted := s.summary.udsAttacksAttempted + 1
          udsAttacksBlocked :=
            s.summary.udsAttacksBlocked + if r.attackBlocked manifestID atk then 1 else 0 } ∧
        ((r.attack manifestID s atk).Clean ↔ s.Clean ∧ r.attackBlocked manifestID atk) := by
      unfold attack attackBlocked
      cases r.attemptManifestMutation atk.method manifestID atk.body with
      | error e => simp [Except.toOption]
      | ok a => cases h : a.blocked <;> simp [h, Except.toOption]
    obtain ⟨hsum, hclean⟩ := ih (r.attack manifestID s atk)
    rw [List.foldl_cons, hsum, hclean, hone.1, hone.2, List.forall_mem_cons, List.countP_cons,
      List.length_cons]
    refine ⟨?_, and_assoc⟩
    simp only [SecurityLabSummary.mk.injEq, true_and, and_true]
    omega

theorem phaseAttackUDS_spec (manifestID : String) (s : SecurityLabRun) :
    (r.phaseAttackUDS manifestID s).summary = { s.summary with
        udsAttacksAttempted := s.summary.udsAttacksAttempted + 3
        udsAttacksBlocked :=
          s.summary.udsAttacksBlocked + attacks.countP (r.attackBlocked manifestID) } ∧
      ((r.phaseAttackUDS manifestID s).Clean ↔
        s.Clean ∧ ∀ atk ∈ attacks, r.attackBlocked manifestID atk) := by
  unfold phaseAttackUDS
  obtain ⟨hsum, hclean⟩ := foldl_attack_spec (r := r) manifestID attacks
    (s.send .attackUDS "intro" .info "Skenario: penyerang menyerang Vault Core langsung via UDS"
      ("Penyerang mencoba menghapus/menimpa manifest immutable melalui protokol penyimpanan " ++
        "(gaya enkripsi ransomware).") [])
  exact ⟨hsum, by simpa using hclean⟩

theorem compare_spec (content : ByteArray) (s : SecurityLabRun) :
    (r.compare content s).summary = { s.summary with
        contentHashAfter := r.sha256Hex content
        reconstructionIdentical := decide (content = r.demoContent) } ∧
      ((r.compare content s).Clean ↔ s.Clean ∧ content = r.demoContent) := by
  unfold compare
  by_cases h : content = r.demoContent <;> simp [h]

theorem conclude_spec (m : Vaultclient.ManifestRecord) (s : SecurityLabRun) :
    ((conclude m s).summary.passed ↔ s.summary.appLayerCompromised ∧
        s.summary.vaultManifestIntact ∧ 0 < s.summary.udsAttacksAttempted ∧
        s.summary.udsAttacksBlocked = s.summary.udsAttacksAttempted ∧
        s.summary.reconstructionIdentical ∧ s.summary.fileHashBefore = m.fileHash ∧
        s.summary.chunkCountBefore = m.chunkCount ∧ m.immutable) ∧
      ((conclude m s).Clean ↔ s.Clean ∧ (conclude m s).summary.passed) := by
  unfold conclude
  simp only [SecurityLabRun.clean_send, SecurityLabRun.clean_summary,
    SecurityLabRun.summary_send]
  constructor
  · simp only [SecurityLabSummary.verdict, Bool.and_eq_true, decide_eq_true_eq, beq_iff_eq,
      gt_iff_lt, and_assoc]
  · refine and_congr_right fun _ => ?_
    split
    · next h => exact iff_of_true nofun h
    · next h => exact iff_of_false (fun hne => hne rfl) h

theorem phaseAfter_spec (manifestID : String) (s : SecurityLabRun) :
    match r.phaseAfter manifestID s with
    | .ok s' => ∃ content m, r.downloadObject manifestID = .ok (.ok content) ∧
        r.getManifest 2 manifestID = .ok m ∧
        (s'.summary.passed ↔ s.summary.appLayerCompromised ∧ s.summary.vaultManifestIntact ∧
          0 < s.summary.udsAttacksAttempted ∧
          s.summary.udsAttacksBlocked = s.summary.udsAttacksAttempted ∧ content = r.demoContent ∧
          s.summary.fileHashBefore = m.fileHash ∧ s.summary.chunkCountBefore = m.chunkCount ∧
          m.immutable) ∧
        (s'.Clean ↔ s.Clean ∧ content = r.demoContent ∧ s'.summary.passed)
    | .error _ => ∀ content m, r.downloadObject manifestID = .ok (.ok content) →
        r.getManifest 2 manifestID ≠ .ok m := by
  unfold phaseAfter
  cases hd : r.downloadObject manifestID with
  | error e => simp
  | ok body =>
    cases body with
    | error e => simp
    | ok content =>
      cases hm : r.getManifest 2 manifestID with
      | error e => simp
      | ok m =>
        dsimp only
        generalize hs : s.send _ _ _ _ _ _ = s₁
        obtain ⟨hsum, hclean⟩ := compare_spec (r := r) content s₁
        obtain ⟨hpassed, hlast⟩ := conclude_spec m (r.compare content s₁)
        have hs₁ : s₁.summary = s.summary ∧ (s₁.Clean ↔ s.Clean) := by simp [← hs]
        refine ⟨content, m, rfl, rfl, ?_, ?_⟩
        · rw [hpassed, hsum, hs₁.1, decide_eq_true_iff]
        · rw [hlast, hclean, hs₁.2, and_assoc]

/-! ## The run -/

/-- **A run that returns** passed if all replies but those about the chunks let it, and then its
record is clean if the chunks are there as well. Those replies let no other run pass. -/
theorem run_spec (r : SecurityLabReplies) :
    match r.run with
    | .ok s => ∃ o proof, r.upload r.demoName "text/plain" r.demoContent = .ok o ∧
        r.getManifest 1 o.manifestID = .ok proof ∧
        (s.summary.passed ↔ r.OtherwisePasses o proof) ∧
        (s.summary.passed → (s.Clean ↔ r.ChunksExist 0 proof.chunkHashes))
    | .error _ => ∀ o proof, ¬ r.OtherwisePasses o proof := by
  unfold run
  cases hid : r.newSecurityRunID with
  | error e =>
    intro o proof h
    obtain ⟨runID, hrun⟩ := h.runID
    rw [hid] at hrun
    cases hrun
  | ok runID =>
    dsimp only [Except.mapError, bind, Except.bind]
    have hbefore := phaseBefore_spec (r := r) ⟨[], { runID }⟩
    cases hb : r.phaseBefore ⟨[], { runID }⟩ with
    | error f =>
      rw [hb] at hbefore
      intro o proof h
      obtain ⟨before, -, hm, -⟩ := h.unchanged
      exact hbefore o h.upload before hm
    | ok x =>
      obtain ⟨o, s₀⟩ := x
      rw [hb] at hbefore
      obtain ⟨hupload, hclean₀, before, hm₀, hsum₀⟩ := hbefore
      have honly : ∀ {o' proof}, r.OtherwisePasses o' proof → o' = o := fun h => by
        have hup := h.upload
        rw [hupload] at hup
        exact (Except.ok.inj hup).symm
      dsimp only
      have happ := phaseAttackApp_spec (r := r) o.fileID s₀
      cases ha : r.phaseAttackApp o.fileID s₀ with
      | error f =>
        rw [ha] at happ
        intro o' proof h
        cases honly h
        exact happ.elim (fun hn => hn h.softDelete) fun hn => hn h.permanentDelete
      | ok s₁ =>
        rw [ha] at happ
        obtain ⟨hsoft, hperm, happ⟩ := happ
        dsimp only
        have hproof := phaseProof_spec (r := r) o.manifestID s₁
        cases hp : r.phaseProof o.manifestID s₁ with
        | error f =>
          rw [hp] at hproof
          intro o' proof h
          cases honly h
          exact hproof proof h.intact
        | ok s₂ =>
          rw [hp] at hproof
          obtain ⟨proof, n, hm₁, hclean₂, hsum₂⟩ := hproof
          dsimp only
          obtain ⟨hsum₃, hclean₃⟩ := phaseAttackUDS_spec (r := r) o.manifestID s₂
          have hafter := phaseAfter_spec (r := r) o.manifestID (r.phaseAttackUDS o.manifestID s₂)
          cases hf : r.phaseAfter o.manifestID (r.phaseAttackUDS o.manifestID s₂) with
          | error f =>
            rw [hf] at hafter
            intro o' proof h
            cases honly h
            obtain ⟨-, after, -, hm, -⟩ := h.unchanged
            exact hafter _ after h.identical hm
          | ok s =>
            rw [hf] at hafter
            obtain ⟨content, after, hdown, hm₂, hpassed, hclean⟩ := hafter
            have hblocked : 0 + attacks.countP (r.attackBlocked o.manifestID) = 0 + 3 ↔
                ∀ atk ∈ attacks, r.attackBlocked o.manifestID atk := by
              rw [Nat.zero_add, Nat.zero_add]
              exact List.countP_eq_length
            have hpasses : s.summary.passed ↔ r.OtherwisePasses o proof := by
              rw [hpassed, hsum₃, hsum₂]
              rcases happ with ⟨hgone, -, hsum₁⟩ | ⟨hfound, hsum₁⟩
              · rw [hsum₁, hsum₀]
                simp only [hblocked, true_and]
                constructor
                · rintro ⟨-, hall, rfl, hfile, hcount, himm⟩
                  exact ⟨⟨runID, hid⟩, hupload, hsoft, hperm, hgone, hm₁, hall, hdown,
                    before, after, hm₀, hm₂, hfile, hcount, himm⟩
                · intro h
                  obtain ⟨before', after', hb', ha', hfile, hcount, himm⟩ := h.unchanged
                  cases hm₀.symm.trans hb'
                  cases hm₂.symm.trans ha'
                  cases hdown.symm.trans h.identical
                  exact ⟨Nat.zero_lt_succ _, h.blocked, rfl, hfile, hcount, himm⟩
              · rw [hsum₁, hsum₀]
                refine iff_of_false (fun h => Bool.false_ne_true h.1) fun h => ?_
                obtain ⟨e, he⟩ := h.gone
                rw [hfound] at he
                cases he
            refine ⟨o, proof, hupload, hm₁, hpasses, fun hp => ?_⟩
            have h := hpasses.1 hp
            have hclean₁ : s₁.Clean ↔ s₀.Clean := by
              rcases happ with ⟨-, hclean₁, -⟩ | ⟨hfound, -⟩
              · exact hclean₁
              · obtain ⟨e, he⟩ := h.gone
                rw [hfound] at he
                cases he
            have hstart : s₀.Clean := hclean₀.2 (fun _ he => (List.not_mem_nil he).elim)
            cases hdown.symm.trans h.identical
            rw [hclean, hclean₃, hclean₂, hclean₁]
            exact ⟨fun hc => hc.1.1.2, fun hc => ⟨⟨⟨hstart, hc⟩, h.blocked⟩, rfl, hp⟩⟩

/-- What the run's summary promises: where it says `passed`, no breach was emitted, the chunks that
the manifest lists were found and every attack was blocked. -/
def VerdictSound (r : SecurityLabReplies) : Prop :=
  ∀ s, r.run = .ok s → s.summary.passed → s.Clean ∧
    ∀ o, r.upload r.demoName "text/plain" r.demoContent = .ok o →
      (∀ proof, r.getManifest 1 o.manifestID = .ok proof → r.ChunksExist 0 proof.chunkHashes) ∧
      ∀ atk ∈ attacks, r.attackBlocked o.manifestID atk

/-- **The verdict is sound exactly where the other replies do not cover a missing chunk.** -/
theorem verdict_sound (r : SecurityLabReplies) :
    r.VerdictSound ↔
      ∀ o proof, r.OtherwisePasses o proof → r.ChunksExist 0 proof.chunkHashes := by
  have hspec := run_spec r
  unfold VerdictSound
  cases hrun : r.run with
  | error f =>
    rw [hrun] at hspec
    exact ⟨fun _ o proof h => (hspec o proof h).elim, fun _ s hs => by cases hs⟩
  | ok s =>
    rw [hrun] at hspec
    obtain ⟨o, proof, hupload, hm, hpassed, hclean⟩ := hspec
    constructor
    · intro h o' proof' hpasses
      cases hupload.symm.trans hpasses.upload
      exact ((h s rfl (hpassed.2 (by rwa [Except.ok.inj (hm.symm.trans hpasses.intact)]))).2 o
        hupload).1 proof' hpasses.intact
    · rintro h s' ⟨⟩ hp
      have hpasses := hpassed.1 hp
      have hchunks := h o proof hpasses
      refine ⟨(hclean hp).2 hchunks, fun o' ho => ?_⟩
      cases hupload.symm.trans ho
      refine ⟨fun proof' hproof => ?_, hpasses.blocked⟩
      cases hm.symm.trans hproof
      exact hchunks

/-- A Vault that has lost the only chunk of the demo file. Reading the object still works. -/
def sampleReplies : SecurityLabReplies where
  newSecurityRunID := .ok "00000000-0000-4000-8000-000000000000"
  nowUnixNano := "0"
  nowRFC3339Nano := "1970-01-01T00:00:00Z"
  upload _ _ _ := .ok ⟨"file", "manifest", ⟨"hash", 1, 0, true⟩⟩
  softDelete _ := .ok ()
  permanentDelete _ := .ok ()
  detail _ := .error "not found"
  getManifest _ _ := .ok ⟨"manifest", "hash", ["chunk"], 142, 1, true⟩
  getChunkStatus _ _ := .ok ⟨false, 0⟩
  attemptManifestMutation _ _ _ := .ok ⟨403, "operation_forbidden", ""⟩
  downloadObject _ := .ok (.ok
    ("HashBox Security Lab — berkas demo uji mitigasi ransomware.\n" ++
      "Dibuat: 1970-01-01T00:00:00Z\nKonten ini sengaja dibuat untuk diserang dan " ++
      "dibuktikan tetap utuh.\n").toUTF8)
  sha256Hex _ := ""

theorem verdict_sound_fails : ¬ ∀ r : SecurityLabReplies, r.VerdictSound := by
  intro h
  have hrun : (sampleReplies.run.toOption.any fun s =>
      s.summary.passed && s.events.any fun e => e.status == .breach) = true := by
    decide +kernel
  obtain ⟨s, hs, hp⟩ := Runs.any_ok hrun
  obtain ⟨hpassed, hbreach⟩ := Bool.and_eq_true_iff.1 hp
  obtain ⟨e, he, hstatus⟩ := List.any_eq_true.1 hbreach
  exact (h sampleReplies s hs hpassed).1 e he (beq_iff_eq.1 hstatus)

end SecurityLabReplies

end HashBox.Api
