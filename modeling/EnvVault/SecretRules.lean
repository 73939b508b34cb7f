import EnvVault.StatementRules
import EnvVault.VaultInvariant

/-!
# Rules for the statements of the secret service

The contract whose invariant is what the vault keeps, the assertions that the
locks of an open transaction protect under it, and the rules of the steps that
the methods of the secret service share.
-/
namespace EnvVault
open EnvVault.Relational EnvVault.Transactions

section
variable {n : ℕ} (d : Deployment) (calls : Fin n → ServiceCall) (base : Table × UUID → Prop)

/-- Every commit of the run is lawful, and no more is asked of it. -/
def secretContract : Contract n vaultEngine where
  inv W := VaultInv d calls base W
  guar k W ws := SecretEffect d (calls k).op W.db ws
  assume _ W ws := vaultSchema.LawfulCommit base W ws
  quiet _ _ _ _ := True
  inv_consume _ _ h _ := ⟨h.valid, h.used, h.onlyKey, h.keysOwn, h.current⟩
  inv_commit _ _ _ h ha hg := h.commit ha hg

variable {d calls base} {i : Fin n} {ws : List RowWrite}

/-- A secret stays, and stays in its environment. -/
theorem stable_secret (x e : UUID) : Stable (secretContract d calls base) i ws fun W =>
    ∃ s ∈ W.db .secrets, s.id = x ∧ s.environmentId = e := by
  refine .of_steps (fun _ _ _ _ hA => hA) fun W k vs hi ha hg _ _ hA => ?_
  obtain ⟨s, hs, rfl, rfl⟩ := hA
  obtain ⟨s', hs', hid⟩ := Schema.id_persists (S := vaultSchema) (hg.no_delete_secret s.id)
    ⟨s, hs, rfl⟩
  exact ⟨s', hs', hid, hg.environment_kept (ha.newKeys hi.used) hi.valid hs hs' hid⟩

/-- The key was in use, and no other key has its identifier. -/
def KeyKnown (base : Table × UUID → Prop) (W : VaultWorld n) (k : EncryptionKey) : Prop :=
  vaultSchema.Ever base W (.encryptionKeys, k.id) ∧
    ∀ k' ∈ W.db .encryptionKeys, k'.id = k.id → k' = k

theorem VaultInv.keyKnown {W : VaultWorld n} (h : VaultInv d calls base W) {k : EncryptionKey}
    (hk : k ∈ W.db .encryptionKeys) : KeyKnown base W k :=
  ⟨h.used .encryptionKeys k hk, fun _ hk' hid => h.valid.eq_of_id (t := .encryptionKeys) hk' hk hid⟩

/-- An identifier that was in use never comes back with another key. -/
theorem stable_keyKnown (k : EncryptionKey) :
    Stable (secretContract d calls base) i ws fun W => KeyKnown base W k := by
  refine .of_steps (fun _ _ _ _ hA => hA) fun W c vs hi ha hg _ _ hA => ?_
  refine ⟨Schema.ever_commit.mpr (Or.inl hA.1), fun k' hk' hid => ?_⟩
  rcases hg.key_origin (ha.newKeys hi.used) hk' with hold | hins
  · exact hA.2 k' hold hid
  · exact absurd hA.1 (ha.unused _ (vaultSchema.mem_inserted.mpr ⟨k', hins, hid⟩))

/-- A key that a new version of the open transaction references stays: the foreign-key
check holds its lock. -/
theorem stable_referencedKey {v : SecretVersion} (hv : .insert .secretVersions v ∈ ws)
    {k : EncryptionKey} (hk : k.id = v.encryptionKeyId) :
    Stable (secretContract d calls base) i ws fun W => k ∈ W.db .encryptionKeys := by
  refine .of_steps (fun _ _ _ _ hA => hA) fun W c vs _ _ hg _ hc hA => hg.key_kept hA ?_
  rw [hk]
  have hfk : keyVersions ∈ vaultSchema.foreignKeys := by
    simp [vaultSchema, foreignKeyList, keyVersions]
  exact Schema.not_delete_of_apart (S := vaultSchema) (Schema.Apart.symm hc) hfk (a := v)
    ⟨_, hv, by simp [keyVersions]⟩ rfl

/-- While a version with the next number is open, nobody commits another version of
the secret. -/
theorem stable_lastNumber {v : SecretVersion} (hv : .insert .secretVersions v ∈ ws) {m : ℕ}
    (hm : v.versionNumber = m + 1) : Stable (secretContract d calls base) i ws fun W =>
      ∀ v' ∈ W.db .secretVersions, v'.secretId = v.secretId → v'.versionNumber ≤ m := by
  refine .of_steps (fun _ _ _ _ hA => hA) fun W c vs hi ha hg _ hc hA v' hv' hid => ?_
  rcases hg.version_origin (ha.newKeys hi.used) hv' with hold | hins
  · exact hA v' hold hid
  · obtain ⟨s, hnew⟩ := hg.of_version_inserted hins
    obtain ⟨j, hj, hnumber⟩ := hnew.next
    have hjm : j ≤ m := by
      rcases Nat.eq_zero_or_pos j with rfl | hpos
      · exact Nat.zero_le m
      · obtain ⟨v₀, hv₀, hsv, rfl⟩ := (hj j).mpr ⟨hpos, le_rfl⟩
        exact hA v₀ hv₀ (hsv.trans (hnew.secret.symm.trans hid))
    have hclash := (Schema.unique_of_apart (S := vaultSchema) hc (t := .secretVersions) (a := v')
      (b := v) ⟨_, hins, by simp⟩ ⟨_, hv, by simp⟩
      (u := fun a b => a.secretId == b.secretId && a.versionNumber == b.versionNumber)
      (by simp [vaultSchema, uniqueOf])).1
    simp only [hid, beq_self_eq_true, Bool.true_and, beq_eq_false_iff_ne] at hclash
    omega

/-- A version of the secret with this number, unless there was none. -/
theorem stable_numbered (x : UUID) (m : ℕ) : Stable (secretContract d calls base) i ws fun W =>
    m = 0 ∨ Numbered W.db x m := by
  refine .of_steps (fun _ _ _ _ hA => hA) fun W c vs _ _ hg _ _ hA => hA.imp_right ?_
  rintro ⟨v, hv, hid, hm⟩
  exact ⟨v, hg.version_kept hv, hid, hm⟩

/-- Deletions of the open transaction still take no secret. -/
theorem stable_deletesNoSecret : Stable (secretContract d calls base) i ws fun W =>
    DeletesNoSecret W.db ws := by
  refine .of_steps (fun _ _ _ _ hA => hA) fun W c vs hi ha hg _ hc hA => ?_
  refine ⟨hA.deletes, hA.secrets, hA.versions, fun k hk hd => ?_⟩
  rcases hg.key_origin (ha.newKeys hi.used) hk with hold | hins
  · exact hA.keys k hold hd
  · exact absurd ⟨_, hins, rfl⟩ (Schema.not_touches_of_apart (S := vaultSchema)
      (Schema.Apart.symm hc) (t := .encryptionKeys) (x := k.id) ⟨_, hd, rfl⟩)

theorem stable_stores (x : UUID) (p : UUID × String) :
    Stable (secretContract d calls base) i ws fun W => p ∈ stores calls W.log x :=
  .of_steps (fun _ _ _ _ hA => hA) fun _ _ _ _ _ _ _ _ hA => mem_stores_commit hA

/-- A row that the open transaction has written looks to it as it did. -/
theorem stable_ownView {t : Table} {r : RowOf t} {vs : List RowWrite}
    (h : vaultSchema.Touches ws t (rowId t r)) : Stable (secretContract d calls base) i ws fun W =>
      r ∈ vaultSchema.view vs W.db t := by
  refine .of_steps (fun _ _ _ _ hA => hA) fun W c us _ _ _ _ hc hA => ?_
  exact (Schema.agree_view vs (Schema.agree_of_untouched
    (Schema.not_touches_of_apart (Schema.Apart.symm hc) h) W.db) r rfl).mpr hA

section
variable {uow : UnitOfWork} {β : Type} {Q : β → Local Db RowWrite → VaultWorld n → Prop}
  {X : Exn → Local Db RowWrite → VaultWorld n → Prop} {l : Local Db RowWrite} {W : VaultWorld n}
  (hX : ∀ e l' V, X e l' V)
include hX

open SecretService

/-- `_get_owned_secret` returns a secret that it has seen live. -/
theorem wlp_getOwnedSecret_bind {secretId org : UUID} {A : Secret → VaultWorld n → Prop}
    (hl : l.pending = []) (hA : ∀ s, Stable (secretContract d calls base) i [] (A s))
    (hget : ∀ V inp s, VaultInv d calls base V → s ∈ V.db .secrets → A s (V.consume inp))
    {k : Secret → Tx β} (h : ∀ s seen V, (∃ db ∈ seen, s ∈ db .secrets) → s.id = secretId →
      s.isDeleted = false → A s V → wlp (secretContract d calls base) i (k s) Q X ⟨[], seen⟩ V) :
    wlp (secretContract d calls base) i ((getOwnedSecret uow secretId org).bind k) Q X l W := by
  obtain ⟨pending, seen⟩ := l
  obtain rfl : pending = [] := hl
  refine wlp_bind (wlp_get_bind hX stable_true trivial (fun V _ => wlp_throw hX)
    fun V inp s _ hi hs hid => ?_)
  dsimp only
  split
  · exact wlp_throw hX
  · rename_i s' hs'
    obtain ⟨rfl, hlive⟩ : s = s' ∧ s'.isDeleted = false := by
      simpa [Option.filter_eq_some_iff] using hs'
    refine wlp_reads_bind (reads_resolveEnvironmentOrg _ _) hX (hA s) (hget V inp s hi hs)
      fun _ seen' V' _ hseen hAV => fun U hU => ?_
    exact h s seen' U ⟨V.db, hseen.subset List.mem_cons_self, hs⟩ hid hlive (hA s _ _ hU hAV)

/-- The active key is a key of the environment. -/
theorem wlp_activeKey_bind {environmentId : UUID} {A : Db → Prop} (hl : l.pending = [])
    (hA : Stable (secretContract d calls base) i [] fun V => A V.db) (hW : A W.db)
    {k : EncryptionKey → Tx β}
    (h : ∀ key seen V, KeyKnown base V key → key.environmentId = environmentId → A V.db →
      wlp (secretContract d calls base) i (k key) Q X ⟨[], seen⟩ V) :
    wlp (secretContract d calls base) i ((activeKey uow environmentId).bind k) Q X l W := by
  obtain ⟨pending, seen⟩ := l
  obtain rfl : pending = [] := hl
  refine wlp_bind (wlp_selectOne_bind hX hA hW (fun V _ => wlp_throw hX)
    fun V inp key hAV hi hkey hc => fun U hU => ?_)
  simp only [Bool.and_eq_true, beq_iff_eq] at hc
  exact h key _ U (stable_keyKnown key _ _ hU (hi.keyKnown hkey)) hc.1 (hA _ _ hU hAV)

/-- The latest version that is read carries a number of the secret. -/
theorem wlp_getLatestForSecret_bind {x : UUID} {A : VaultWorld n → Prop} (hl : l.pending = [])
    (hA : Stable (secretContract d calls base) i [] A) (hW : A W)
    {k : Option SecretVersion → Tx β}
    (h : ∀ latest seen V m, (m = 0 ∨ Numbered V.db x m) →
      newVersionNumber latest = m + 1 → A V →
      wlp (secretContract d calls base) i (k latest) Q X ⟨[], seen⟩ V) :
    wlp (secretContract d calls base) i
      ((SecretVersionRepository.getLatestForSecret uow x).bind k) Q X l W := by
  obtain ⟨pending, seen⟩ := l
  obtain rfl : pending = [] := hl
  refine wlp_bind (wlp_statement_bind hX hA hW fun V inp ws rows hAV hi hfresh hf => fun U hU => ?_)
  simp only [Except.ok.injEq, Prod.mk.injEq] at hf
  obtain ⟨rfl, rfl⟩ := hf
  have hU' := (Interference.consume inp (.refl V) hi hfresh).trans hU
  have hstable (m : ℕ) (hm : m = 0 ∨ Numbered V.db x m) := stable_numbered x m _ _ hU' hm
  cases hlatest : SecretVersionRepository.latest (uow.found .secretVersions
    (fun v : SecretVersion => v.secretId == x) V.db) with
  | none =>
    have hread := h none (V.db :: seen) U 0 (Or.inl rfl) rfl (hA _ _ hU' hAV)
    simpa [hlatest] using hread
  | some v =>
    obtain ⟨hv, hc⟩ := List.mem_filter.mp (SecretVersionRepository.mem_of_latest hlatest)
    simp only [Bool.and_eq_true, beq_iff_eq] at hc
    have hread := h (some v) (V.db :: seen) U v.versionNumber
      (hstable _ (Or.inr ⟨v, hv, hc.2, rfl⟩)) rfl (hA _ _ hU' hAV)
    simpa [hlatest] using hread

/-- The commit that makes a new version the current one. -/
theorem wlp_commitPointer {Q : Unit → Local Db RowWrite → VaultWorld n → Prop}
    (hQ : ∀ a l' V, Q a l' V) {secretId versionId : UUID} {A : Db → Prop}
    (hA : ∀ vs, Stable (secretContract d calls base) i (l.pending ++ vs) fun W => A W.db)
    (hW : A W.db)
    (hG : ∀ V s, A V.db → VaultInv d calls base V →
      vaultSchema.LawfulCommit base V (l.pending ++ [.update .secrets (s.pointingTo versionId)]) →
      s ∈ vaultSchema.view l.pending V.db .secrets → s.id = secretId →
      SecretEffect d (calls i).op V.db
        (l.pending ++ [.update .secrets (s.pointingTo versionId)])) :
    wlp (secretContract d calls base) i (commitPointer uow secretId versionId) Q X l W := by
  have hnil : Stable (secretContract d calls base) i l.pending fun V => A V.db := by
    simpa using hA []
  refine wlp_updateFlushed_bind hX hnil hW fun V inp s hV _ hs hid => ?_
  have hown : Stable (secretContract d calls base) i
      (l.pending ++ [.update .secrets (s.pointingTo versionId)])
      fun W => s ∈ vaultSchema.view l.pending W.db .secrets :=
    stable_ownView ⟨_, List.mem_append_right _ (List.mem_singleton.mpr rfl), rfl⟩
  refine wlp_reads_bind (reads_checkCurrentVersion _ _) hX ((hA _).and hown) ⟨hV, hs⟩
    fun _ _ V _ _ hAV => ?_
  exact wlp_commit_end hX ((hA _).and hown) hAV (fun V hV hi ha => hG V s hV.1 hi ha hV.2 hid)
    (hQ ())

end

end

end EnvVault
