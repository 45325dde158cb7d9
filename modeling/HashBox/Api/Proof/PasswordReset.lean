import HashBox.Api.PasswordReset
import HashBox.Api.Proof.Sessions

/-!
# A reset token sets one password

The first `UPDATE` of every transaction is of the same user, so the transactions with one token run
one after the other from there on (`ResetTxn.Inv.users`), and the one that comes second finds the
token used. Whatever interleaves, the database is the initial one or what one call of
`CompletePasswordReset` makes of it (`reset_single_use`).
-/

namespace HashBox.Api

variable {crypt : String → String → String} {hashToken : String → String} {token : String}
  {db db' db₀ : AuthDb} {locks locks' : Locks AccountRow} {t t' : Nat} {x x' : ResetTxn}

/-! ## One transaction -/

namespace ResetTxn

def At (db : AuthDb) (x : ResetTxn) : ResetPoint → Prop
  | .setPassword => x.resetTokens = [] ∧ x.sessions = []
  | .settingPassword scan =>
    scan.cond = UserRow.has x.userID ∧ x.resetTokens = [] ∧ x.sessions = []
  | .useToken => x.users ≠ [] ∧ x.sessions = []
  | .usingToken scan =>
    scan.cond = PasswordResetTokenRow.unused x.resetID ∧ x.users ≠ [] ∧ x.sessions = []
  | .revokeSessions => x.users ≠ [] ∧ x.resetTokens ≠ []
  | .revokingSessions scan =>
    scan.cond = SessionRow.unrevoked x.userID ∧ x.users ≠ [] ∧ x.resetTokens ≠ [] ∧
      ∀ q ∈ db.accessSessions.rows, q.unrevoked x.userID = true →
        q.id ∈ x.sessions ∨ .session q.id ∈ scan.todo
  | .commit => x.users ≠ [] ∧ x.resetTokens ≠ [] ∧
      ∀ q ∈ db.accessSessions.rows, q.unrevoked x.userID = true → q.id ∈ x.sessions

/-- The rows updated are those of the statements' conditions, and the user's row is locked. -/
structure Inv (db : AuthDb) (locks : Locks AccountRow) (t : Nat) (x : ResetTxn) : Prop where
  users : ∀ id ∈ x.users, id = x.userID ∧ locks (.user x.userID) = some t ∧
    ∃ u ∈ db.users.rows, u.idPengguna = x.userID
  resetTokens : ∀ id ∈ x.resetTokens, id = x.resetID ∧
    ∃ r ∈ db.passwordResetTokens.rows, r.id = x.resetID ∧ r.usedAt = none
  sessions : ∀ id ∈ x.sessions, ∃ q ∈ db.accessSessions.rows,
    q.id = id ∧ q.unrevoked x.userID = true
  point : x.At db x.point

theorem Inv.start (db : AuthDb) (locks : Locks AccountRow) (t : Nat)
    (resetToken : PasswordResetTokenRow) (newPassword salt : String) (now : Time) :
    (start resetToken newPassword salt now).Inv db locks t :=
  ⟨fun _ h => (by cases h), fun _ h => (by cases h), fun _ h => (by cases h), rfl, rfl⟩

theorem Inv.keep (hx : x.Inv db locks t) (hl : ∀ k, locks k = some t → locks' k = some t) :
    x.Inv db locks' t :=
  ⟨fun id h => let ⟨h1, h2, h3⟩ := hx.users id h; ⟨h1, hl _ h2, h3⟩, hx.resetTokens, hx.sessions,
    hx.point⟩

/-- A transaction that has not locked the user's row depends on nothing. -/
theorem Inv.of_users_nil (hx : x.Inv db locks t) (h : x.users = []) : x.Inv db' locks' t := by
  obtain ⟨-, -, -, hpoint⟩ := hx
  cases hp : x.point <;> rw [hp] at hpoint
  case setPassword =>
    obtain ⟨h1, h2⟩ := hpoint
    exact ⟨by simp [h], by simp [h1], by simp [h2], hp ▸ ⟨h1, h2⟩⟩
  case settingPassword scan =>
    obtain ⟨hc, h1, h2⟩ := hpoint
    exact ⟨by simp [h], by simp [h1], by simp [h2], hp ▸ ⟨hc, h1, h2⟩⟩
  case useToken => exact absurd h hpoint.1
  case usingToken => exact absurd h hpoint.2.1
  case revokeSessions => exact absurd h hpoint.1
  case revokingSessions => exact absurd h hpoint.2.1
  case commit => exact absurd h hpoint.1

/-- **One step of a transaction.** -/
theorem Inv.goes (hx : x.Inv db locks t) (h : x.next db locks t = some (.goes locks' x')) :
    x'.Inv db locks' t ∧ (∀ k t', locks k = some t' → locks' k = some t') ∧
      x'.resetID = x.resetID ∧ x'.userID = x.userID := by
  obtain ⟨husers, htokens, hsessions, hpoint⟩ := hx
  have kept : ∀ l : Locks AccountRow, (∀ k t', locks k = some t' → l k = some t') →
      ∀ id ∈ x.users, id = x.userID ∧ l (.user x.userID) = some t ∧
        ∃ u ∈ db.users.rows, u.idPengguna = x.userID :=
    fun l hl id hid => ⟨(husers id hid).1, hl _ _ (husers id hid).2.1, (husers id hid).2.2⟩
  unfold next at h
  split at h <;> rename_i hp <;> rw [hp] at hpoint
  · cases h
    exact ⟨⟨husers, htokens, hsessions, rfl, hpoint.1, hpoint.2⟩, fun _ _ => id, rfl, rfl⟩
  · split at h
    · cases h
    · next hne =>
      cases h
      exact ⟨⟨husers, htokens, hsessions, hne, hpoint.2.2⟩, fun _ _ => id, rfl, rfl⟩
  · -- the user's row: it is locked and still there
    obtain ⟨⟨l, o⟩, hv, hgo⟩ := Option.map_eq_some_iff.1 h
    cases hgo
    obtain ⟨hc, htok, hses⟩ := hpoint
    dsimp only at hc
    have hkeep : ∀ k t', locks k = some t' → l k = some t' := fun _ _ => Scan.visit_keeps hv
    refine ⟨⟨fun id hid => ?_, htokens, hsessions, hc, htok, hses⟩, hkeep, rfl, rfl⟩
    rcases List.mem_append.1 hid with hid | hid
    · exact kept l hkeep id hid
    · cases o with
      | none => cases hid
      | some u =>
        obtain ⟨hu, hk, hcu, hl⟩ := Scan.visit_row hv
        rw [hc, UserRow.has, beq_iff_eq] at hcu
        rw [← hk, hcu] at hl
        exact ⟨(List.mem_singleton.1 hid).trans hcu, hl, u, hu, hcu⟩
  · cases h
    exact ⟨⟨husers, htokens, hsessions, rfl, hpoint.1, hpoint.2⟩, fun _ _ => id, rfl, rfl⟩
  · split at h
    · cases h
    · next hne =>
      cases h
      exact ⟨⟨husers, htokens, hsessions, hpoint.2.1, hne⟩, fun _ _ => id, rfl, rfl⟩
  · -- the token's row: it is unused, in what is committed now
    obtain ⟨⟨l, o⟩, hv, hgo⟩ := Option.map_eq_some_iff.1 h
    cases hgo
    obtain ⟨hc, hne, hses⟩ := hpoint
    dsimp only at hc
    have hkeep : ∀ k t', locks k = some t' → l k = some t' := fun _ _ => Scan.visit_keeps hv
    refine ⟨⟨kept l hkeep, fun id hid => ?_, hsessions, hc, hne, hses⟩, hkeep, rfl, rfl⟩
    rcases List.mem_append.1 hid with hid | hid
    · exact htokens id hid
    · cases o with
      | none => cases hid
      | some r =>
        obtain ⟨hr, -, hcr, -⟩ := Scan.visit_row hv
        rw [hc, PasswordResetTokenRow.unused, Bool.and_eq_true, beq_iff_eq,
          Option.isNone_iff_eq_none] at hcr
        exact ⟨(List.mem_singleton.1 hid).trans hcr.1, r, hr, hcr⟩
  · cases h
    exact ⟨⟨husers, htokens, hsessions, rfl, hpoint.1, hpoint.2, fun q hq hu =>
      .inr (Scan.mem_start hq hu)⟩, fun _ _ => id, rfl, rfl⟩
  · cases h
    obtain ⟨-, hne, hne', hall⟩ := hpoint
    exact ⟨⟨husers, htokens, hsessions, hne, hne', fun q hq hu =>
      (hall q hq hu).resolve_right List.not_mem_nil⟩, fun _ _ => id, rfl, rfl⟩
  · -- a session: unrevoked, or not to be revoked
    obtain ⟨⟨l, o⟩, hv, hgo⟩ := Option.map_eq_some_iff.1 h
    cases hgo
    obtain ⟨hc, hne, hne', hall⟩ := hpoint
    dsimp only at hc hall
    have hkeep : ∀ k t', locks k = some t' → l k = some t' := fun _ _ => Scan.visit_keeps hv
    refine ⟨⟨kept l hkeep, htokens, fun id hid => ?_, hc, hne, hne', fun q hq hu => ?_⟩,
      hkeep, rfl, rfl⟩
    · rcases List.mem_append.1 hid with hid | hid
      · exact hsessions id hid
      · cases o with
        | none => cases hid
        | some q =>
          obtain ⟨hq, -, hcq, -⟩ := Scan.visit_row hv
          exact ⟨q, hq, (List.mem_singleton.1 hid).symm, hc ▸ hcq⟩
    · rcases hall q hq hu with hdone | hk
      · exact .inl (List.mem_append_left _ hdone)
      · rcases List.mem_cons.1 hk with hk | hk
        · refine .inl (List.mem_append_right _ ?_)
          cases o with
          | none =>
            have hkey : ∀ r ∈ db.accessSessions.rows, ∀ r' ∈ db.accessSessions.rows,
                AccountRow.session r.id = .session r'.id → r = r' := fun r hr r' hr' he =>
              db.accessSessions.eq_of_key hr hr' (AccountRow.session.inj he)
            have hfalse := Scan.visit_none hkey hv hq hk
            rw [hc, hu] at hfalse
            cases hfalse
          | some q' =>
            obtain ⟨-, hk', -⟩ := Scan.visit_row hv
            exact List.mem_singleton.2 (AccountRow.session.inj (hk.trans hk'.symm))
        · exact .inr hk
  · cases h

/-- **The commit is `CompletePasswordReset`.** -/
theorem Inv.commits (crypt : String → String → String) (hx : x.Inv db locks t)
    (h : x.next db locks t = some .commits) :
    x.users ≠ [] ∧ db.completePasswordReset crypt x.resetID x.userID x.newPassword x.salt x.now =
      .ok (x.apply crypt db) := by
  obtain ⟨husers, htokens, hsessions, hpoint⟩ := hx
  have hcommit : x.point = .commit := by
    unfold next at h
    split at h
    case h_10 hp => exact hp
    all_goals first | cases h | (split at h <;> cases h) |
      (obtain ⟨_, -, hgo⟩ := Option.map_eq_some_iff.1 h; cases hgo)
  rw [hcommit] at hpoint
  obtain ⟨hne, hne', hall⟩ := hpoint
  obtain ⟨id, hid⟩ := List.exists_mem_of_ne_nil _ hne
  obtain ⟨id', hid'⟩ := List.exists_mem_of_ne_nil _ hne'
  refine ⟨hne, completePasswordReset_ok.2
    ⟨(husers id hid).2.2, (htokens id' hid').2, ?_⟩⟩
  have hu : ∀ u ∈ db.users.rows, decide (u.idPengguna ∈ x.users) = UserRow.has x.userID u := by
    intro u _
    rw [Bool.eq_iff_iff, decide_eq_true_eq, UserRow.has, beq_iff_eq]
    exact ⟨fun hmem => (husers _ hmem).1, fun he => he ▸ (husers id hid).1 ▸ hid⟩
  have hr : ∀ r ∈ db.passwordResetTokens.rows, decide (r.id ∈ x.resetTokens) =
      PasswordResetTokenRow.unused x.resetID r := by
    intro r hr
    rw [Bool.eq_iff_iff, decide_eq_true_eq, PasswordResetTokenRow.unused, Bool.and_eq_true,
      beq_iff_eq, Option.isNone_iff_eq_none]
    refine ⟨fun hmem => ?_, fun he => he.1 ▸ (htokens id' hid').1 ▸ hid'⟩
    obtain ⟨hid, r', hr', hid', hunused⟩ := htokens _ hmem
    rw [db.passwordResetTokens.eq_of_key hr hr' (hid.trans hid'.symm)]
    exact ⟨hid', hunused⟩
  have hs : ∀ q ∈ db.accessSessions.rows, decide (q.id ∈ x.sessions) =
      SessionRow.unrevoked x.userID q := by
    intro q hq
    rw [Bool.eq_iff_iff, decide_eq_true_eq]
    refine ⟨fun hmem => ?_, hall q hq⟩
    obtain ⟨q', hq', hid, hunrevoked⟩ := hsessions _ hmem
    rwa [db.accessSessions.eq_of_key hq hq' hid.symm]
  refine AuthDb.ext ?_ ?_ ?_
  · exact Table.updateWhere_congr (f := UserRow.withPassword (crypt x.newPassword x.salt))
      (h := fun _ => rfl) hu
  · exact Table.updateWhere_congr (f := SessionRow.revoke x.now) (h := fun _ => rfl) hs
  · exact Table.updateWhere_congr (f := PasswordResetTokenRow.use x.now) (h := fun _ => rfl) hr

end ResetTxn

/-! ## The token's row -/

def AuthDb.HasToken (hashToken : String → String) (token : String) (db : AuthDb)
    (r : PasswordResetTokenRow) : Prop :=
  db.findPasswordResetToken (hashToken (trimSpace token)) = .ok r

theorem findPasswordResetToken_ok {tokenHash : String} {r : PasswordResetTokenRow}
    (h : db.findPasswordResetToken tokenHash = .ok r) :
    r ∈ db.passwordResetTokens.rows ∧ r.tokenHash = tokenHash := by
  unfold AuthDb.findPasswordResetToken at h
  split at h
  · cases h
  · next hr =>
    cases h
    exact ⟨List.mem_of_find?_eq_some hr, by simpa using List.find?_some hr⟩

theorem checkPasswordReset_ok {newPassword confirmPassword newPassword' : String} {now : Time}
    {r : PasswordResetTokenRow}
    (h : checkPasswordReset hashToken db token newPassword confirmPassword now =
      .ok (r, newPassword')) :
    db.HasToken hashToken token r ∧ r.usedAt = none := by
  unfold checkPasswordReset at h
  dsimp only at h
  iterate 3 (split at h; · cases h)
  split at h
  · cases h
  · cases h
  · next hfind =>
    split at h
    · cases h
    · next hfresh =>
      cases h
      rw [not_or, Option.not_isSome_iff_eq_none] at hfresh
      exact ⟨hfind, hfresh.1⟩

/-- **A completed reset has used the token**, which no lookup finds unused then. -/
theorem completePasswordReset_used {resetID userID : Uuid} {newPassword salt : String} {now : Time}
    (h : db.completePasswordReset crypt resetID userID newPassword salt now = .ok db') :
    (∀ r ∈ db'.passwordResetTokens.rows, r.id = resetID → r.usedAt ≠ none) ∧
      ∀ r, db.HasToken hashToken token r → r.id = resetID →
        ∀ r', db'.HasToken hashToken token r' → r'.usedAt ≠ none := by
  obtain ⟨-, -, rfl⟩ := completePasswordReset_ok.1 h
  have hrow : ∀ r' ∈ Table.updateRows (PasswordResetTokenRow.unused resetID)
        (PasswordResetTokenRow.use now) db.passwordResetTokens.rows,
      (r'.id = resetID → r'.usedAt ≠ none) ∧
        ∃ r ∈ db.passwordResetTokens.rows, r.id = r'.id ∧ r.tokenHash = r'.tokenHash := by
    intro r' hr'
    rcases Table.mem_updateRows.1 hr' with ⟨r, hr, -, rfl⟩ | ⟨hr, hp⟩
    · exact ⟨fun _ he => (by cases he), r, hr, rfl, rfl⟩
    · refine ⟨fun hid hnone => ?_, r', hr, rfl, rfl⟩
      simp [PasswordResetTokenRow.unused, hid, hnone] at hp
  refine ⟨fun r hr => (hrow r hr).1, fun r hr hid r' hr' => ?_⟩
  obtain ⟨hmem, hhash⟩ := findPasswordResetToken_ok hr
  obtain ⟨hmem', hhash'⟩ := findPasswordResetToken_ok hr'
  obtain ⟨hused, q, hq, hqid, hqhash⟩ := hrow r' hmem'
  have heq : q = r := List.inj_on_of_nodup_map db.tokenHashUnique hq hmem
    (hqhash.trans (hhash'.trans hhash.symm))
  exact hused (hqid.symm.trans (heq ▸ hid))

/-! ## The system -/

def ResetTxn.OfToken (hashToken : String → String) (token : String) (db₀ : AuthDb)
    (x : ResetTxn) : Prop :=
  ∃ r, db₀.HasToken hashToken token r ∧ x.resetID = r.id ∧ x.userID = r.userId

theorem ResetTxn.OfToken.user_eq (hx : x.OfToken hashToken token db₀)
    (hx' : x'.OfToken hashToken token db₀) : x.resetID = x'.resetID ∧ x.userID = x'.userID := by
  obtain ⟨r, hr, h1, h2⟩ := hx
  obtain ⟨r', hr', h1', h2'⟩ := hx'
  cases hr.symm.trans hr'
  exact ⟨h1.trans h1'.symm, h2.trans h2'.symm⟩

/-- The database is what the transaction, run alone, makes of the initial one; the password of the
token's user is the one it was given. -/
structure ResetTxn.Made (crypt : String → String → String) (hashToken : String → String)
    (token : String) (db₀ db : AuthDb) (x : ResetTxn) : Prop where
  ofToken : x.OfToken hashToken token db₀
  completed : db₀.completePasswordReset crypt x.resetID x.userID x.newPassword x.salt x.now = .ok db
  password : ∃ u ∈ db.users.rows, u.idPengguna = x.userID ∧
    u.passwordHash = crypt x.newPassword x.salt

theorem ResetTxn.Made.of_completed (hx : x.OfToken hashToken token db₀)
    (h : db₀.completePasswordReset crypt x.resetID x.userID x.newPassword x.salt x.now = .ok db) :
    x.Made crypt hashToken token db₀ db := by
  refine ⟨hx, h, ?_⟩
  obtain ⟨⟨u, hu, hid⟩, -, rfl⟩ := completePasswordReset_ok.1 h
  exact ⟨u.withPassword (crypt x.newPassword x.salt), Table.mem_updateRows.2
    (.inl ⟨u, hu, by simpa [UserRow.has] using hid, rfl⟩), hid, rfl⟩

namespace ResetSystem

variable {s s' : ResetSystem} {a : ResetAction}

def CallInv (hashToken : String → String) (token : String) (db₀ db : AuthDb)
    (locks : Locks AccountRow) (t : Nat) : ResetCall → Prop
  | .checked r _ => db₀.HasToken hashToken token r
  | .running x => x.Inv db locks t ∧ x.OfToken hashToken token db₀

structure Inv (crypt : String → String → String) (hashToken : String → String) (token : String)
    (db₀ : AuthDb) (s : ResetSystem) : Prop where
  calls : ∀ t c, s.calls.lookup t = some c → CallInv hashToken token db₀ s.db s.locks t c
  db : (s.succeeded = [] ∧ s.db = db₀) ∨
    ∃ x, s.succeeded = [x] ∧ x.Made crypt hashToken token db₀ s.db

theorem inv_idle (db : AuthDb) : Inv crypt hashToken token db (idle db) :=
  ⟨fun _ _ h => (by cases h), .inl ⟨rfl, rfl⟩⟩

theorem CallInv.keep {c : ResetCall} (h : CallInv hashToken token db₀ db locks t c)
    (hl : ∀ k, locks k = some t → locks' k = some t) :
    CallInv hashToken token db₀ db locks' t c := by
  cases c with
  | checked r _ => exact h
  | running x => exact ⟨h.1.keep hl, h.2⟩

theorem Inv.finish (hs : Inv crypt hashToken token db₀ s) (t : Nat) :
    Inv crypt hashToken token db₀ (s.finish t) := by
  refine ⟨fun t' c hc => ?_, hs.db⟩
  simp only [ResetSystem.finish, Dict.lookup_erase_if] at hc
  split at hc
  · cases hc
  · next hne => exact (hs.calls t' c hc).keep fun k hk => Locks.release_other hk hne

/-- **One step.** -/
theorem Inv.step (hs : Inv crypt hashToken token db₀ s)
    (h : step crypt hashToken token s a = some s') : Inv crypt hashToken token db₀ s' := by
  cases a with
  | check t newPassword confirmPassword now =>
    simp only [ResetSystem.step] at h
    split at h
    · cases h
    · split at h
      · cases h
        exact hs
      · next r newPassword' hcheck =>
        cases h
        obtain ⟨hr, hunused⟩ := checkPasswordReset_ok hcheck
        refine ⟨fun t' c hc => ?_, hs.db⟩
        rcases Dict.lookup_insert_cases hc with ⟨-, rfl⟩ | ⟨-, hc⟩
        · rcases hs.db with ⟨-, hdb⟩ | ⟨x, -, hmade⟩
          · exact hdb ▸ hr
          · -- the token is used by then
            obtain ⟨r0, hr0, hid, -⟩ := hmade.ofToken
            exact absurd hunused
              ((completePasswordReset_used hmade.completed).2 r0 hr0 hid.symm r hr)
        · exact hs.calls t' c hc
  | begin t salt now =>
    simp only [ResetSystem.step] at h
    split at h
    · next r newPassword hcall =>
      cases h
      refine ⟨fun t' c hc => ?_, hs.db⟩
      rcases Dict.lookup_insert_cases hc with ⟨-, rfl⟩ | ⟨-, hc⟩
      · exact ⟨.start .., r, hs.calls t _ hcall, rfl, rfl⟩
      · exact hs.calls t' c hc
    · cases h
  | next t =>
    simp only [ResetSystem.step] at h
    split at h
    · next x hcall =>
      obtain ⟨hx, hof⟩ := hs.calls t _ hcall
      split at h
      · cases h
      · next locks x' hnext =>
        cases h
        obtain ⟨hx', hkeep, hid, huser⟩ := hx.goes hnext
        refine ⟨fun t' c hc => ?_, hs.db⟩
        rcases Dict.lookup_insert_cases hc with ⟨ht, rfl⟩ | ⟨-, hc⟩
        · obtain ⟨r, hr, h1, h2⟩ := hof
          exact ⟨ht ▸ hx', r, hr, hid.trans h1, huser.trans h2⟩
        · exact (hs.calls t' c hc).keep fun k hk => hkeep k t' hk
      · next hnext =>
        cases h
        obtain ⟨hne, hcom⟩ := hx.commits crypt hnext
        refine ⟨fun t' c hc => ?_, .inr ⟨x, ?_⟩⟩
        · simp only [ResetSystem.finish, Dict.lookup_erase_if] at hc
          split at hc
          · cases hc
          · next ht =>
            have hc' := hs.calls t' c hc
            cases c with
            | checked r _ => exact hc'
            | running y =>
              -- it waits for the user's row, which the committing transaction has locked
              refine ⟨hc'.1.of_users_nil ?_, hc'.2⟩
              by_contra hy
              obtain ⟨i, hi⟩ := List.exists_mem_of_ne_nil _ hne
              obtain ⟨j, hj⟩ := List.exists_mem_of_ne_nil _ hy
              have h1 := (hx.users i hi).2.1
              have h2 := (hc'.1.users j hj).2.1
              rw [(hof.user_eq hc'.2).2, h2] at h1
              exact ht (Option.some.inj h1)
        · rcases hs.db with ⟨hnil, hdb⟩ | ⟨y, -, hmade⟩
          · exact ⟨by simp [hnil], .of_completed hof (hdb ▸ hcom)⟩
          · -- a second commit would find the token unused
            obtain ⟨-, ⟨r, hr, hid, hunused⟩, -⟩ := completePasswordReset_ok.1 hcom
            exact absurd hunused
              ((@completePasswordReset_used crypt hashToken token _ _ _ _ _ _ _
                hmade.completed).1 r hr (hid.trans (hof.user_eq hmade.ofToken).1))
      · cases h
        exact hs.finish t
    · cases h
  | fail t =>
    simp only [ResetSystem.step] at h
    split at h
    · cases h
      exact hs.finish t
    · cases h

theorem step_db (h : step crypt hashToken token s a = some s')
    (hsame : s'.succeeded = s.succeeded) : s'.db = s.db := by
  cases a with
  | check t newPassword confirmPassword now =>
    simp only [ResetSystem.step] at h
    split at h
    · cases h
    · split at h <;> cases h <;> rfl
  | begin t salt now =>
    simp only [ResetSystem.step] at h
    split at h <;> cases h
    rfl
  | next t =>
    simp only [ResetSystem.step] at h
    split at h
    · split at h <;> cases h
      · rfl
      · exact absurd hsame (List.cons_ne_self _ _)
      · rfl
    · cases h
  | fail t =>
    simp only [ResetSystem.step] at h
    split at h <;> cases h
    rfl

/-- **One token sets one password.** From any database, in every run of calls with one token, at
most one call succeeds; what is stored is what the successful call stores, run alone, or what there
was; and every step of a call other than its successful commit leaves all of it as it is. -/
theorem reset_single_use (crypt : String → String → String) (hashToken : String → String)
    (token : String) (db₀ : AuthDb) {s : ResetSystem}
    (h : Runs.Reach (step crypt hashToken token) (fun _ _ => True) (· = idle db₀) s) :
    s.succeeded.length ≤ 1 ∧ (s.succeeded = [] → s.db = db₀) ∧
      (∀ x ∈ s.succeeded, x.Made crypt hashToken token db₀ s.db) ∧
      ∀ a s', step crypt hashToken token s a = some s' → s'.succeeded = s.succeeded →
        s'.db = s.db := by
  have hinv : Inv crypt hashToken token db₀ s := h.inv (fun _ he => he ▸ inv_idle db₀)
    fun _ _ _ hs _ hstep => hs.step hstep
  refine ⟨?_, fun hnil => ?_, fun x hx => ?_, fun a s' => step_db⟩
  · rcases hinv.db with ⟨hnil, -⟩ | ⟨y, hy, -⟩
    · rw [hnil]
      exact Nat.zero_le 1
    · rw [hy]
      exact Nat.le_refl 1
  · rcases hinv.db with ⟨-, hdb⟩ | ⟨y, hy, -⟩
    · exact hdb
    · rw [hnil] at hy
      cases hy
  · rcases hinv.db with ⟨hnil, -⟩ | ⟨y, hy, hmade⟩
    · rw [hnil] at hx
      cases hx
    · rw [hy] at hx
      rwa [List.mem_singleton.1 hx]

/-- Two calls look the token up before either has used it; the second waits for the user's row. -/
def twoResets : List ResetAction :=
  [.check 0 "kata-baru" "kata-baru" 10, .check 1 "kata-lain" "kata-lain" 10,
   .begin 0 "" 11, .begin 1 "" 11, .next 1, .next 0, .next 0, .next 0, .next 0, .next 0, .next 0,
   .next 0, .next 0, .next 0, .next 1, .next 1, .next 1, .next 1]

/-- The second call ends without success, and the first one's password is stored. -/
theorem reset_single_use_sample : ∃ s,
    Runs.Reach (step (fun password _ => password) id "reset") (fun _ _ => True)
      (· = idle AuthSystem.sampleAccounts) s ∧
    s.calls = ∅ ∧ s.succeeded.map (·.newPassword) = ["kata-baru"] ∧
    (s.succeeded.length ≤ 1 ∧ (s.succeeded = [] → s.db = AuthSystem.sampleAccounts) ∧
      (∀ x ∈ s.succeeded, x.Made (fun password _ => password) id "reset"
        AuthSystem.sampleAccounts s.db) ∧
      ∀ a s', step (fun password _ => password) id "reset" s a = some s' →
        s'.succeeded = s.succeeded → s'.db = s.db) := by
  have run : (Runs.exec (step (fun password _ => password) id "reset")
      (idle AuthSystem.sampleAccounts) twoResets).any (fun s => s.calls.keys.isEmpty &&
        decide (s.succeeded.map (·.newPassword) = ["kata-baru"])) = true := by decide
  obtain ⟨s, hs, hend⟩ := (Option.any_eq_true _ _).1 run
  obtain ⟨hcalls, hsucc⟩ := Bool.and_eq_true_iff.1 hend
  have hreach : Runs.Reach (step (fun password _ => password) id "reset") (fun _ _ => True)
      (· = idle AuthSystem.sampleAccounts) s :=
    .exec (.init rfl) (fun _ _ _ => trivial) hs
  refine ⟨s, hreach, ?_, of_decide_eq_true hsucc,
    reset_single_use _ id "reset" AuthSystem.sampleAccounts hreach⟩
  exact Dict.entries_eq_nil.1 (List.map_eq_nil_iff.1 (List.isEmpty_iff.1 hcalls))

end ResetSystem

end HashBox.Api
