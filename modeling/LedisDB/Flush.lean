import LedisDB.Removal
import LedisDB.StoredValues

/-!
# FLUSHDB

`DB.FlushAll` of `ledis/ledis_db.go`: for each type, up to 1024 keys are scanned and
deleted in one commit, until a scan finds none. The queue is not emptied by a commit,
so each commit applies the ones before it again. A key whose delete function leaves
its size or meta entry is found by every scan, and the loop does not end; entries that
no scan leads to stay. The flush returns and empties the database exactly when every
key is `Flushable`.
-/

namespace LedisDB

open DB List

variable (db : DB) (env : Env) (fuel : ℕ)

namespace DB

def flushKeys (db : DB) (T : DataType) : List Bytes → Op Unit
  | [] => pure ()
  | key :: keys => do
    let _ ← db.deleteFunc T key
    let _ ← (db.rmExpire T.code key).ignoreErr 0
    db.flushKeys T keys

def flushLoop (db : DB) (env : Env) (T : DataType) :
    ℕ → Store → Txn → Int64 → Option (Except Err Int64 × Store)
  | 0, _, _, _ => none
  | fuel + 1, s, t, drop =>
    match (db.scanGeneric T.plain [] 1024 false none false env s t).1 with
    | .ok [] => some (.ok drop, s)
    | r =>
      let keys := r.toOption.getD []
      match db.flushKeys T keys env s t with
      | (.error e, _) => some (.error e, s)
      | (.ok (), t) =>
        match commit env s t.batch with
        | .error e => some (.error e, s)
        | .ok s => db.flushLoop env T fuel s t (drop + Int64.ofNat keys.length)

def flushType (T : DataType) (st : State) : Option (Except Err Int64 × State) :=
  (db.flushLoop env T fuel st.store ⟨[], st.nc⟩ 0).map fun r => (r.1, ⟨r.2, st.nc⟩)

def flush : State → Option (Except Err Int64 × State) :=
  db.flushType env fuel .KV

def lFlush : State → Option (Except Err Int64 × State) :=
  db.flushType env fuel .LIST

def hFlush : State → Option (Except Err Int64 × State) :=
  db.flushType env fuel .HASH

def zFlush : State → Option (Except Err Int64 × State) :=
  db.flushType env fuel .ZSET

def sFlush : State → Option (Except Err Int64 × State) :=
  db.flushType env fuel .SET

def flushEach : List (State → Option (Except Err Int64 × State)) → State → Int64 →
    Option (Except Err Int64 × State)
  | [], st, drop => some (.ok drop, st)
  | flush :: all, st, drop =>
    match flush st with
    | none => none
    | some (.error e, st) => some (.error e, st)
    | some (.ok n, st) => flushEach all st (drop + n)

def FlushAll (st : State) : Option (Except Err Int64 × State) :=
  flushEach [db.flush env fuel, db.lFlush env fuel, db.hFlush env fuel, db.zFlush env fuel,
    db.sFlush env fuel] st 0

end DB

variable {Ts : List DataType}

section
variable {db : DB} {env : Env} {s s' m : Store} {T : DataType} {A A' : Bytes → Prop}
  {D : Option (Bytes × Int64)} {key k ek v : Bytes} {u t : Txn} {b : Batch} {keys : List Bytes}
  {fuel : ℕ} {drop : Int64} {r : Except Err Int64}

theorem Emits.mono (hA : ∀ k, A k → A' k) (h : Emits db s T A D b) : Emits db s T A' D b := by
  induction h with
  | nil => exact .nil
  | put hk he _ ih => exact .put (hA _ hk) he ih
  | delete hk he _ ih => exact .delete (hA _ hk) he ih
  | rmExpire hk hv hw _ ih => exact .rmExpire (hA _ hk) hv hw ih
  | expireAt hk hD _ ih => exact .expireAt (hA _ hk) hD ih

theorem Emits.other (hb : Emits db s T A D b) (hm : StoreWf m) {db' : DB} {T' : DataType}
    (hE : Entry db' T' k ek) (hne : db' ≠ db ∨ T' ≠ T ∨ ¬ A k) :
    (m.applyBatch b).get ek = m.get ek :=
  same_of_frame hm (hb.wf hm) (fun h => get_applyBatch_of_not_mem m (hb.frame h)) hE hne

def Queued (db : DB) (env : Env) (s : Store) (T : DataType) (key : Bytes) (b : Batch) : Prop :=
  ∃ n u t, db.deleteFunc T key env s u = (.ok n, t) ∧ t.batch = u.batch ++ b

section
variable (h : Queued db env s T key b) (hs : StoreWf s)
include h hs

theorem Queued.emits : Emits db s T (· = key) none (b ++ db.rmBatch s T.code key) := by
  obtain ⟨n, u, t, hrun, hb⟩ := h
  exact emits_of_deleteFunc hs hrun hb

theorem Queued.clean
    (hplain : s.get (db.plainKey T.plain key) ≠ none) (hrem : Removable db s T key) :
    Clean db (s.applyBatch (b ++ db.rmBatch s T.code key)) T key := by
  obtain ⟨n, u, t, hrun, hb⟩ := h
  obtain ⟨n', b', hb', hwipes⟩ := deleteFunc_wipes hs hplain hrem env u
  rw [hrun] at hb'
  rw [(Prod.mk.inj hb').2] at hb
  rw [← append_cancel_left hb]
  exact hwipes.clean hs

theorem Queued.residue
    (hplain : s.get (db.plainKey T.plain key) ≠ none) (hrem : ¬ Removable db s T key) :
    ¬ Flushable db (s.applyBatch (b ++ db.rmBatch s T.code key)) T key := by
  obtain ⟨n, u, t, hrun, hb⟩ := h
  obtain ⟨b', hb', hres⟩ := deleteFunc_residue hs hplain hrem hrun
  rwa [← append_cancel_left (hb.symm.trans hb')] at hres

end

structure Round (db : DB) (env : Env) (T : DataType) (keys : List Bytes) (s s' : Store) :
    Prop where
  wf : StoreWf s'
  other : ∀ {db' T' k ek}, Entry db' T' k ek → db' ≠ db ∨ T' ≠ T ∨ k ∉ keys → s'.get ek = s.get ek
  queued : ∀ k ∈ keys, ∃ b, Queued db env s T k b ∧ ∀ ek, Entry db T k ek →
    s'.get ek = (s.applyBatch (b ++ db.rmBatch s T.code k)).get ek

theorem flushKeys_ok (hs : StoreWf s) (hnd : keys.Nodup)
    (hrun : db.flushKeys T keys env s u = (.ok (), t)) :
    ∃ b, t.batch = u.batch ++ b ∧ Emits db s T (· ∈ keys) none b ∧
      ∀ k ∈ keys, ∃ b', Queued db env s T k b' ∧ ∀ m, StoreWf m →
        (∀ ek, Entry db T k ek → m.get ek = s.get ek) → ∀ ek, Entry db T k ek →
          (m.applyBatch b).get ek = (s.applyBatch (b' ++ db.rmBatch s T.code k)).get ek := by
  induction keys generalizing u with
  | nil =>
    cases hrun
    exact ⟨[], by simp, .nil, fun _ h => nomatch h⟩
  | cons key keys ih =>
    obtain ⟨hnotin, hnd⟩ := nodup_cons.mp hnd
    obtain ⟨n, t₁, hdel, h1⟩ := Op.bind_ok.mp hrun
    obtain ⟨b₁, hb₁, -⟩ := deleteFunc_emits hs T key u
    rw [hdel] at hb₁
    dsimp only at hb₁
    have hqueued : Queued db env s T key b₁ := ⟨n, u, t₁, hdel, hb₁⟩
    have hemits := hqueued.emits hs
    obtain ⟨n', hrm⟩ := rmExpire_run db env s t₁ T.code key
    simp only [Op.bind_run, hrm] at h1
    obtain ⟨b₂, ht, hemits₂, hkeys⟩ := ih hnd h1
    refine ⟨b₁ ++ db.rmBatch s T.code key ++ b₂, by simp [ht, hb₁], ?_, fun k hk => ?_⟩
    · exact (hemits.mono fun k hk => hk ▸ (.head _)).append (hemits₂.mono fun k hk => .tail _ hk)
    rcases mem_cons.mp hk with rfl | hk
    · refine ⟨b₁, hqueued, fun m hm hsame ek hek => ?_⟩
      rw [applyBatch_append, hemits₂.other (hemits.wf hm) hek
        (.inr (.inr hnotin)), OrderedMap.get_applyBatch, OrderedMap.get_applyBatch,
        hsame ek hek]
    · obtain ⟨b', hb', hm'⟩ := hkeys k hk
      have hne : k ≠ key := fun heq => hnotin (heq ▸ hk)
      refine ⟨b', hb', fun m hm hsame ek hek => ?_⟩
      rw [applyBatch_append]
      refine hm' _ (hemits.wf hm) (fun ek hek => ?_) ek hek
      rw [hemits.other hm hek (.inr (.inr hne)), hsame ek hek]

theorem round_of_commit (hs : StoreWf s) (hu : s.applyBatch u.batch = s) (hnd : keys.Nodup)
    (hrun : db.flushKeys T keys env s u = (.ok (), t)) (hc : commit env s t.batch = .ok s') :
    Round db env T keys s s' ∧ s'.applyBatch t.batch = s' := by
  obtain ⟨b, hb, hemits, hkeys⟩ := flushKeys_ok hs hnd hrun
  have hs' : s' = s.applyBatch b := by
    rw [commit_ok hc, hb, applyBatch_append, hu]
  refine ⟨⟨hs' ▸ hemits.wf hs, fun hE hne => ?_, fun k hk => ?_⟩, ?_⟩
  · rw [hs']
    exact hemits.other hs hE hne
  · obtain ⟨b', hb', hent⟩ := hkeys k hk
    exact ⟨b', hb', hs' ▸ hent s hs fun _ _ => rfl⟩
  · rw [commit_ok hc]
    exact OrderedMap.applyBatch_applyBatch_self s _

section
variable (h : Round db env T keys s s') (hs : StoreWf s) (hk : key ∈ keys)
  (hplain : s.get (db.plainKey T.plain key) ≠ none)
include h hs hk hplain

theorem Round.clean (hrem : Removable db s T key) : Clean db s' T key := by
  obtain ⟨b, hb, hent⟩ := h.queued key hk
  exact (hb.clean hs hplain hrem).congr hent

theorem Round.residue (hrem : ¬ Removable db s T key) : ¬ Flushable db s' T key := by
  obtain ⟨b, hb, hent⟩ := h.queued key hk
  refine fun hflush => hb.residue hs hplain hrem ?_
  exact hflush.congr h.wf ((hb.emits hs).wf hs) fun ek hek => (hent ek hek).symm

end

theorem Round.flushable_iff (h : Round db env T keys s s') (hs : StoreWf s)
    (hkeys : ∀ k ∈ keys, k ≠ [] ∧ s.get (db.plainKey T.plain k) ≠ none) (k : Bytes) :
    Flushable db s' T k ↔ Flushable db s T k := by
  by_cases hk : k ∈ keys
  · constructor
    · intro hflush
      refine .inr ⟨(hkeys k hk).1, (hkeys k hk).2, ?_⟩
      by_contra hrem
      exact h.residue hs hk (hkeys k hk).2 hrem hflush
    · rintro (hclean | ⟨-, -, hrem⟩)
      · exact absurd (hclean _ (.inl (.plain db T k))) (hkeys k hk).2
      · exact .inl (h.clean hs hk (hkeys k hk).2 hrem)
  · have hsame : ∀ ek, Entry db T k ek → s'.get ek = s.get ek :=
      fun ek hek => h.other hek (.inr (.inr hk))
    exact ⟨fun hf => hf.congr h.wf hs fun ek hek => (hsame ek hek).symm,
      fun hf => hf.congr hs h.wf hsame⟩

def pageOf (db : DB) (s : Store) (T : DataType) : List Bytes :=
  ((db.keysOf s T).filter (· ≠ [])).take 1024

theorem pageOf_nodup : (pageOf db s T).Nodup :=
  ((keysOf_nodup T).filter _).sublist (take_sublist _ _)

theorem mem_keysOf_of_pageOf (h : k ∈ pageOf db s T) :
    k ≠ [] ∧ s.get (db.plainKey T.plain k) ≠ none := by
  obtain ⟨hk, hne⟩ := mem_filter.mp (mem_of_mem_take h)
  exact ⟨of_decide_eq_true hne, mem_keysOf.mp hk⟩

theorem pageOf_eq_nil (h : pageOf db s T = []) (hk : k ≠ []) :
    s.get (db.plainKey T.plain k) = none := by
  by_contra hget
  have hmem : k ∈ (db.keysOf s T).filter (· ≠ []) :=
    mem_filter.mpr ⟨mem_keysOf.mpr hget, decide_eq_true hk⟩
  rw [pageOf, take_eq_nil_iff] at h
  rcases h with h | h
  · cases h
  · rw [h] at hmem
    cases hmem

theorem flushLoop_succ (fuel : ℕ) (t : Txn)
    (drop : Int64) : db.flushLoop env T (fuel + 1) s t drop =
      if pageOf db s T = [] then some (.ok drop, s)
      else match db.flushKeys T (pageOf db s T) env s t with
        | (.error e, _) => some (.error e, s)
        | (.ok (), t) =>
          match commit env s t.batch with
          | .error e => some (.error e, s)
          | .ok s' => db.flushLoop env T fuel s' t
              (drop + Int64.ofNat (pageOf db s T).length) := by
  have hscan : (db.scanGeneric T.plain [] 1024 false none false env s t).1 =
      .ok (pageOf db s T) := by
    rw [scanGeneric_start T (by decide) t]
    rfl
  rw [flushLoop, hscan]
  cases pageOf db s T with
  | nil => rfl
  | cons k ks => rfl

theorem flushLoop_some (hs : StoreWf s) (hu : s.applyBatch u.batch = s)
    (h : db.flushLoop env T fuel s u drop = some (r, s')) :
    StoreWf s' ∧
      (∀ {db' T' k ek}, Entry db' T' k ek → db' ≠ db ∨ T' ≠ T → s'.get ek = s.get ek) ∧
      ∀ n, r = .ok n → ∀ k, Clean db s' T k ↔ Flushable db s T k := by
  induction fuel generalizing s u drop with
  | zero => cases h
  | succ fuel ih =>
    rw [flushLoop_succ] at h
    split_ifs at h with hpage
    · cases h
      refine ⟨hs, fun _ _ => rfl, fun n _ k => ⟨.inl, ?_⟩⟩
      rintro (hclean | ⟨hne, hplain, -⟩)
      · exact hclean
      · exact absurd (pageOf_eq_nil hpage hne) hplain
    · split at h
      · cases h
        exact ⟨hs, fun _ _ => rfl, fun n hn => nomatch hn⟩
      · next t hrun =>
        split at h
        · cases h
          exact ⟨hs, fun _ _ => rfl, fun n hn => nomatch hn⟩
        · next s₁ hc =>
          obtain ⟨hround, ht⟩ := round_of_commit hs hu (pageOf_nodup) hrun hc
          obtain ⟨hwf, hother, hclean⟩ := ih hround.wf ht h
          refine ⟨hwf, fun hE hne => ?_, fun n hn k => ?_⟩
          · rw [hother hE hne, hround.other hE (hne.imp_right .inl)]
          · rw [hclean n hn k, hround.flushable_iff hs fun k hk => mem_keysOf_of_pageOf hk]

theorem Round.keysOf_length (h : Round db env T keys s s') (hs : StoreWf s) (hnd : keys.Nodup)
    (hkeys : ∀ k ∈ keys, s.get (db.plainKey T.plain k) ≠ none ∧ Removable db s T k) :
    (db.keysOf s' T).length + keys.length = (db.keysOf s T).length := by
  have hset : (db.keysOf s' T).toFinset = (db.keysOf s T).toFinset \ keys.toFinset := by
    ext k
    simp only [Finset.mem_sdiff, mem_toFinset, mem_keysOf]
    by_cases hk : k ∈ keys
    · have hnone := h.clean hs hk (hkeys k hk).1 (hkeys k hk).2 _ (.inl (.plain db T k))
      simp [hk, hnone]
    · rw [h.other (.inl (.plain db T k)) (.inr (.inr hk))]
      simp [hk]
  have hsub : keys.toFinset ⊆ (db.keysOf s T).toFinset := by
    intro k hk
    rw [mem_toFinset] at hk ⊢
    exact mem_keysOf.mpr (hkeys k hk).1
  rw [← toFinset_card_of_nodup (keysOf_nodup T),
    ← toFinset_card_of_nodup (keysOf_nodup T), ← toFinset_card_of_nodup hnd, hset,
    Finset.card_sdiff_add_card_eq_card hsub]

theorem flushKeys_returns (hs : StoreWf s)
    (hkeys : ∀ k ∈ keys, s.get (db.plainKey T.plain k) ≠ none ∧ Removable db s T k) (env : Env)
    (u : Txn) : ∃ t, db.flushKeys T keys env s u = (.ok (), t) := by
  induction keys generalizing u with
  | nil => exact ⟨u, rfl⟩
  | cons key keys ih =>
    obtain ⟨hplain, hrem⟩ := hkeys key (.head _)
    obtain ⟨n, b, hb, -⟩ := deleteFunc_wipes hs hplain hrem env u
    obtain ⟨n', hrm⟩ := rmExpire_run db env s (u.queue b) T.code key
    obtain ⟨t, ht⟩ := ih (fun k hk => hkeys k (.tail _ hk))
      ((u.queue b).queue (db.rmBatch s T.code key))
    refine ⟨t, ?_⟩
    simp only [flushKeys, Op.bind_run, hb, hrm, ht]

theorem Flushable.of_plain (h : Flushable db s T key)
    (hplain : s.get (db.plainKey T.plain key) ≠ none) : key ≠ [] ∧ Removable db s T key := by
  rcases h with h | ⟨hne, -, hrem⟩
  · exact absurd (h _ (.inl (.plain db T key))) hplain
  · exact ⟨hne, hrem⟩

theorem flushLoop_returns (hs : StoreWf s) (hu : s.applyBatch u.batch = s)
    (hflush : ∀ k, Flushable db s T k) (env : Env) (hfuel : (db.keysOf s T).length < fuel)
    (drop : Int64) :
    ∃ r s', db.flushLoop env T fuel s u drop = some (r, s') ∧
      (∀ n, r = .ok n → n = drop + Int64.ofNat (db.keysOf s T).length) ∧
      ∀ e, r = .error e → ∃ s b, commit env s b = .error e := by
  induction fuel generalizing s u drop with
  | zero => omega
  | succ fuel ih =>
    have hpage : ∀ k ∈ pageOf db s T, s.get (db.plainKey T.plain k) ≠ none ∧
        Removable db s T k := by
      intro k hk
      have hplain := (mem_keysOf_of_pageOf hk).2
      exact ⟨hplain, ((hflush k).of_plain hplain).2⟩
    rw [flushLoop_succ]
    split_ifs with hnil
    · refine ⟨_, _, rfl, fun n hn => ?_, fun e he => nomatch he⟩
      have hkeys : db.keysOf s T = [] := by
        rw [eq_nil_iff_forall_not_mem]
        intro k hk
        have hplain := mem_keysOf.mp hk
        exact hplain (pageOf_eq_nil hnil ((hflush k).of_plain hplain).1)
      cases hn
      simp [hkeys]
    · obtain ⟨t, ht⟩ := flushKeys_returns hs hpage env u
      rw [ht]
      simp only
      cases hc : commit env s t.batch with
      | error e =>
        refine ⟨.error e, s, rfl, (fun n hn => nomatch hn), fun e' he => ⟨s, t.batch, ?_⟩⟩
        rw [hc, Except.error.inj he]
      | ok s₁ =>
        obtain ⟨hround, hset⟩ := round_of_commit hs hu (pageOf_nodup) ht hc
        have hlen := hround.keysOf_length hs (pageOf_nodup) hpage
        have hpos := length_pos_iff.mpr hnil
        obtain ⟨r, s', hr, hok, herr⟩ := ih hround.wf hset (fun k =>
            (hround.flushable_iff hs (fun k hk => mem_keysOf_of_pageOf hk) k).mpr (hflush k))
          (by omega) (drop + Int64.ofNat (pageOf db s T).length)
        refine ⟨r, s', hr, fun n hn => ?_, herr⟩
        rw [hok n hn, ← hlen, Int64.ofNat_add, Int64.add_assoc, Int64.add_comm (Int64.ofNat _)]

def SizeStays (db : DB) (s : Store) (key : Bytes) : Prop :=
  s.get (db.zEncodeSizeKey key) ≠ none ∧ (MaxKeySize < key.length ∨
    ∀ n, decodeInt64 (s.get (db.zEncodeSizeKey key)) = .ok n →
      ¬ n + -Int64.ofNat (zCounted db s key).length ≤ 0)

section
variable (h : SizeStays db s key) (hs : StoreWf s)
include h hs

theorem SizeStays.congr (hs' : StoreWf s')
    (hsame : ∀ ek, Entry db .ZSET key ek → s'.get ek = s.get ek) : SizeStays db s' key := by
  have hcounted : zCounted db s' key = zCounted db s key := by
    simp [zCounted, zScored_congr hs hs' hsame, fun m => hsame _ (.inl (DataEntry.zmember key m))]
  unfold SizeStays at h ⊢
  rwa [hsame _ (.inl (.zsize key)), hcounted]

theorem SizeStays.deleted (hb : Queued db env s .ZSET key b) :
    SizeStays db (s.applyBatch (b ++ db.rmBatch s ZSetType key)) key := by
  obtain ⟨hsize, hstays⟩ := h
  obtain ⟨n, u, t, hrun, hb⟩ := hb
  by_cases hk : key.length ≤ MaxKeySize
  · obtain ⟨n', hn'⟩ := zDelete_queue db hs hk env u
    rw [deleteFunc, hn'] at hrun
    cases hrun
    rw [← append_cancel_left hb]
    have hstays := hstays.resolve_left (not_lt.mpr hk)
    have hdel : (zDeleted db s key).get (db.zEncodeSizeKey key) = _ := zDeleted_size
    have hcounted : zCounted db (zDeleted db s key) key = [] := by
      rw [zCounted, zDeleted_zScored hs hk, filter_nil]
    cases hn : decodeInt64 (s.get (db.zEncodeSizeKey key)) with
    | error e =>
      simp only [hn] at hdel
      exact ⟨hdel ▸ hsize, .inr fun n' hn' => by rw [hdel, hn] at hn'; cases hn'⟩
    | ok n =>
      simp only [hn, if_neg (hstays n hn)] at hdel
      refine ⟨by rw [hdel]; simp, .inr fun n' hn' => ?_⟩
      rw [hdel, decodeInt64_PutInt64] at hn'
      cases hn'
      rw [hcounted]
      simpa using hstays n hn
  · rw [deleteFunc, zDelete_long hk env u] at hrun
    cases hrun
    obtain rfl : b = [] := by simpa using hb
    refine ⟨?_, .inl (not_le.mp hk)⟩
    rwa [nil_append, rmBatch_get_data (.zsize key)]

theorem SizeStays.round (hround : Round db env .ZSET keys s s') : SizeStays db s' key := by
  by_cases hk : key ∈ keys
  · obtain ⟨b, hb, hent⟩ := hround.queued key hk
    exact (h.deleted hs hb).congr ((hb.emits hs).wf hs) hround.wf hent
  · exact h.congr hs hround.wf fun ek hek => hround.other hek (.inr (.inr hk))

end

theorem flushKeys_zset_returns (hs : StoreWf s) (keys : List Bytes) (u : Txn) :
    ∃ t, db.flushKeys .ZSET keys env s u = (.ok (), t) := by
  induction keys generalizing u with
  | nil => exact ⟨u, rfl⟩
  | cons key keys ih =>
    have hdel : ∃ n t, db.deleteFunc .ZSET key env s u = (.ok n, t) := by
      by_cases hk : key.length ≤ MaxKeySize
      · obtain ⟨n, hn⟩ := zDelete_queue db hs hk env u
        exact ⟨n, _, hn⟩
      · exact ⟨0, u, zDelete_long hk env u⟩
    obtain ⟨n, t₁, hn⟩ := hdel
    obtain ⟨n', hrm⟩ := rmExpire_run db env s t₁ (DataType.code .ZSET) key
    obtain ⟨t, ht⟩ := ih (t₁.queue (db.rmBatch s (DataType.code .ZSET) key))
    exact ⟨t, by simp [flushKeys, hn, hrm, ht]⟩

theorem flushLoop_never_returns (hs : StoreWf s) (hu : s.applyBatch u.batch = s) (hne : key ≠ [])
    (h : SizeStays db s key) (henv : ∀ s b, commit env s b = .ok (s.applyBatch b)) (fuel : ℕ)
    (drop : Int64) : db.flushLoop env .ZSET fuel s u drop = none := by
  induction fuel generalizing s u drop with
  | zero => rfl
  | succ fuel ih =>
    have hpage : pageOf db s .ZSET ≠ [] := fun hnil => h.1 (pageOf_eq_nil hnil hne)
    obtain ⟨t, ht⟩ := flushKeys_zset_returns hs (pageOf db s .ZSET) u
    obtain ⟨hround, hset⟩ := round_of_commit hs hu (pageOf_nodup) ht (henv s t.batch)
    rw [flushLoop_succ, if_neg hpage, ht]
    simp only [henv]
    exact ih hround.wf hset (h.round hs hround) _

def flushOrder : List DataType := [.KV, .LIST, .HASH, .ZSET, .SET]

theorem mem_flushOrder : T ∈ flushOrder := by
  cases T <;> decide

theorem FlushAll_eq (fuel : ℕ) (st : State) :
    db.FlushAll env fuel st = DB.flushEach (flushOrder.map (db.flushType env fuel)) st 0 := rfl

variable {st st' : State}

theorem flushType_some (hs : StoreWf st.store) (h : db.flushType env fuel T st = some (r, st')) :
    StoreWf st'.store ∧ (∀ {db' T' k ek}, Entry db' T' k ek → db' ≠ db ∨ T' ≠ T →
        st'.store.get ek = st.store.get ek) ∧
      ∀ n, r = .ok n → ∀ k, Clean db st'.store T k ↔ Flushable db st.store T k := by
  obtain ⟨⟨r', s'⟩, hloop, heq⟩ := Option.map_eq_some_iff.mp h
  cases heq
  exact flushLoop_some hs rfl hloop

theorem flushType_returns (hs : StoreWf st.store) (hflush : ∀ k, Flushable db st.store T k)
    (hfuel : (db.keysOf st.store T).length < fuel) :
    ∃ r st', db.flushType env fuel T st = some (r, st') ∧
      (∀ n, r = .ok n → n = Int64.ofNat (db.keysOf st.store T).length) ∧
      ∀ e, r = .error e → ∃ s b, commit env s b = .error e := by
  obtain ⟨r, s', hloop, hok, herr⟩ := flushLoop_returns (u := ⟨[], st.nc⟩) hs rfl hflush env hfuel 0
  refine ⟨r, ⟨s', st.nc⟩, by rw [flushType, hloop]; rfl, fun n hn => ?_, herr⟩
  rw [hok n hn, Int64.zero_add]

theorem flushEach_some (hs : StoreWf st.store) (hnd : Ts.Nodup)
    (h : DB.flushEach (Ts.map (db.flushType env fuel)) st drop = some (r, st')) :
    (∀ {db' T' k ek}, Entry db' T' k ek → db' ≠ db ∨ T' ∉ Ts → st'.store.get ek = st.store.get ek) ∧
      ∀ n, r = .ok n → ∀ T ∈ Ts, ∀ k, Clean db st'.store T k ↔ Flushable db st.store T k := by
  induction Ts generalizing st drop with
  | nil =>
    cases h
    exact ⟨fun _ _ => rfl, fun _ _ _ hT => nomatch hT⟩
  | cons T Ts ih =>
    obtain ⟨hnotin, hnd⟩ := nodup_cons.mp hnd
    rw [map_cons, flushEach] at h
    split at h
    · cases h
    · next e st₁ h₁ =>
      cases h
      obtain ⟨-, hother, -⟩ := flushType_some hs h₁
      exact ⟨fun hE hne => hother hE (hne.imp_right fun hT heq => hT (heq ▸ (.head _))),
        fun n hn => nomatch hn⟩
    · next n₁ st₁ h₁ =>
      obtain ⟨hwf, hother, hclean⟩ := flushType_some hs h₁
      obtain ⟨hother₂, hclean₂⟩ := ih hwf hnd h
      refine ⟨fun hE hne => ?_, fun n hn T' hT' k => ?_⟩
      · rw [hother₂ hE (hne.imp_right fun hT hin => hT (.tail _ hin)),
          hother hE (hne.imp_right fun hT heq => hT (heq ▸ (.head _)))]
      · rcases mem_cons.mp hT' with rfl | hT'
        · have hsame : ∀ ek, Entry db T' k ek → st'.store.get ek = st₁.store.get ek :=
            fun ek hek => hother₂ hek (.inr hnotin)
          rw [← hclean n₁ rfl k]
          exact ⟨fun hc => hc.congr fun ek hek => (hsame ek hek).symm, fun hc => hc.congr hsame⟩
        · have hsame : ∀ ek, Entry db T' k ek → st₁.store.get ek = st.store.get ek :=
            fun ek hek => hother hek (.inr fun heq => hnotin (heq ▸ hT'))
          rw [hclean₂ n hn T' hT' k]
          exact ⟨fun hf => hf.congr hwf hs fun ek hek => (hsame ek hek).symm,
            fun hf => hf.congr hs hwf hsame⟩

theorem keysOf_congr (h : ∀ k, s'.get (db.plainKey T.plain k) = s.get (db.plainKey T.plain k)) :
    (db.keysOf s' T).length = (db.keysOf s T).length := by
  rw [← toFinset_card_of_nodup (keysOf_nodup T), ← toFinset_card_of_nodup (keysOf_nodup T)]
  congr 1
  ext k
  rw [mem_toFinset, mem_toFinset, mem_keysOf, mem_keysOf, h k]

theorem flushEach_returns (hs : StoreWf st.store) (hnd : Ts.Nodup)
    (hflush : ∀ T ∈ Ts, ∀ k, Flushable db st.store T k)
    (hfuel : ∀ T ∈ Ts, (db.keysOf st.store T).length < fuel) (drop : Int64) :
    ∃ r st', DB.flushEach (Ts.map (db.flushType env fuel)) st drop = some (r, st') ∧
      (∀ n, r = .ok n → n = drop + Int64.ofNat
        (Ts.map fun T => (db.keysOf st.store T).length).sum) ∧
      ∀ e, r = .error e → ∃ s b, commit env s b = .error e := by
  induction Ts generalizing st drop with
  | nil =>
    refine ⟨_, _, rfl, fun n hn => ?_, fun e he => nomatch he⟩
    cases hn
    simp
  | cons T Ts ih =>
    obtain ⟨hnotin, hnd⟩ := nodup_cons.mp hnd
    obtain ⟨r₁, st₁, h₁, hok₁, herr₁⟩ := flushType_returns hs (hflush T (.head _))
      (hfuel T (.head _))
    obtain ⟨hwf, hother, -⟩ := flushType_some hs h₁
    rw [map_cons, flushEach, h₁]
    cases r₁ with
    | error e => exact ⟨.error e, st₁, rfl, (fun n hn => nomatch hn), herr₁⟩
    | ok n₁ =>
      have hsame : ∀ T' ∈ Ts, ∀ k ek, Entry db T' k ek → st₁.store.get ek = st.store.get ek :=
        fun T' hT' k ek hek => hother hek (.inr fun heq => hnotin (heq ▸ hT'))
      have hcount := fun T' hT' => keysOf_congr fun k => hsame T' hT' k _ (.inl (.plain db T' k))
      obtain ⟨r, st', h, hok, herr⟩ := ih hwf hnd
        (fun T' hT' k => (hflush T' (.tail _ hT') k).congr hs hwf (hsame T' hT' k))
        (fun T' hT' => hcount T' hT' ▸ hfuel T' (.tail _ hT')) (drop + n₁)
      refine ⟨r, st', h, fun n hn => ?_, herr⟩
      rw [hok n hn, hok₁ n₁ rfl, map_congr_left hcount, map_cons, sum_cons,
        Int64.ofNat_add, Int64.add_assoc]

/-- States of the databases of one server. -/
inductive Reached : Store → Prop
  | empty : Reached OrderedMap.empty
  | call {st : State} (db : DB) (env : Env) (c : Call) (h : Reached st.store) :
      Reached (c.step db env st).2.1.store
  | flush {st st' : State} {db : DB} {env : Env} {fuel : ℕ} {r : Except Err Int64}
      (h : Reached st.store) (hf : db.FlushAll env fuel st = some (r, st')) : Reached st'.store

theorem flushEach_induction {I : Store → Prop}
    (hstep : ∀ {T st r st'}, I st.store → db.flushType env fuel T st = some (r, st') → I st'.store)
    (h : I st.store)
    (hf : DB.flushEach (Ts.map (db.flushType env fuel)) st drop = some (r, st')) : I st'.store := by
  induction Ts generalizing st drop with
  | nil =>
    cases hf
    exact h
  | cons T Ts ih =>
    rw [map_cons, flushEach] at hf
    split at hf
    · cases hf
    · next e st₁ h₁ =>
      cases hf
      exact hstep h h₁
    · next n₁ st₁ h₁ => exact ih (hstep h h₁) hf

theorem Reached.wf (h : Reached s) : StoreWf s := by
  induction h with
  | empty => exact StoreWf.empty
  | call db env c _ ih => exact step_wf ih c
  | flush _ hf ih =>
    rw [FlushAll_eq] at hf
    exact flushEach_induction (fun h h' => (flushType_some h h').1) ih hf

theorem flushLoop_proper (hs : StoreWf s) (hu : s.applyBatch u.batch = s) (h : Proper s)
    (hf : db.flushLoop env T fuel s u drop = some (r, s')) : Proper s' := by
  induction fuel generalizing s u drop with
  | zero => cases hf
  | succ fuel ih =>
    rw [flushLoop_succ] at hf
    split_ifs at hf with hpage
    · cases hf
      exact h
    · split at hf
      · cases hf
        exact h
      · next t hrun =>
        split at hf
        · cases hf
          exact h
        · next s₁ hc =>
          obtain ⟨hround, ht⟩ := round_of_commit hs hu (pageOf_nodup) hrun hc
          obtain ⟨b, hb, hemits, -⟩ := flushKeys_ok hs pageOf_nodup hrun
          refine ih hround.wf ht ?_ hf
          rw [commit_ok hc, hb, applyBatch_append, hu]
          exact hemits.proper h h

theorem Reached.proper (h : Reached s) : Proper s := by
  induction h with
  | empty => exact .empty
  | call db env c h ih => exact step_proper h.wf ih c
  | @flush st st' db env fuel r h hf ih =>
    rw [FlushAll_eq] at hf
    refine (flushEach_induction (I := fun s => StoreWf s ∧ Proper s) (fun h₁ h₂ => ?_)
      ⟨h.wf, ih⟩ hf).2
    refine ⟨(flushType_some h₁.1 h₂).1, ?_⟩
    obtain ⟨⟨r', s'⟩, hloop, heq⟩ := Option.map_eq_some_iff.mp h₂
    cases heq
    exact flushLoop_proper h₁.1 rfl h₁.2 hloop

def oneString (value : Bytes) : State :=
  (exec (Env.quiet 0) (DB.zero.Set [107] value) State.empty).2

theorem Reached.exec {α : Type} {st : State} (h : Reached st.store) (env : Env) {c : Write}
    {x : Op (Ret α)} (hx : c.body db = x.discard) : Reached (exec env x st).2.store := by
  have hstep := h.call db env (.write c)
  rwa [Call.step, hx, exec_discard_state] at hstep

theorem oneString_reached (value : Bytes) : Reached (oneString value).store :=
  @Reached.exec DB.zero _ State.empty .empty (Env.quiet 0) (.Set [107] value) _ rfl

theorem Reached.value_length_le (h : Reached s) (db : DB) (key : Bytes) :
    ((s.get (db.encodeKVKey key)).getD []).length ≤ MaxValueSize :=
  LedisDB.value_length_le h.proper db key

/-- The flush of a type returns the number of its keys and leaves none of their entries, or
returns the error of a commit; in either case other entries are as before. -/
def FlushesType (db : DB) (env : Env) (T : DataType) (st : State) : Prop :=
  ∃ fuel r st', db.flushType env fuel T st = some (r, st') ∧
    (match r with
      | .ok n => n = Int64.ofNat (db.keysOf st.store T).length ∧ ∀ k, Clean db st'.store T k
      | .error e => ∃ s b, commit env s b = .error e) ∧
    ∀ db' T' k ek, Entry db' T' k ek → db' ≠ db ∨ T' ≠ T → st'.store.get ek = st.store.get ek

def Flushes (db : DB) (env : Env) (st : State) : Prop :=
  ∃ fuel r st', db.FlushAll env fuel st = some (r, st') ∧
    (match r with
      | .ok n => n = Int64.ofNat (flushOrder.map fun T => (db.keysOf st.store T).length).sum ∧
        ∀ T k, Clean db st'.store T k
      | .error e => ∃ s b, commit env s b = .error e) ∧
    ∀ db' T k ek, Entry db' T k ek → db' ≠ db → st'.store.get ek = st.store.get ek

theorem commit_quiet (now : Int64) (s : Store) (b : Batch) :
    commit (Env.quiet now) s b = .ok (s.applyBatch b) := rfl

theorem flushesType_iff (hs : StoreWf st.store) :
    (∀ env, FlushesType db env T st) ↔ ∀ k, Flushable db st.store T k := by
  constructor
  · intro h k
    obtain ⟨fuel, r, st', hf, hr, -⟩ := h (Env.quiet 0)
    cases r with
    | error e =>
      obtain ⟨s, b, hc⟩ := hr
      cases hc
    | ok n => exact ((flushType_some hs hf).2.2 n rfl k).mp (hr.2 k)
  · intro h env
    obtain ⟨r, st', hf, hok, herr⟩ := flushType_returns hs h (Nat.lt_succ_self _)
    obtain ⟨-, hother, hclean⟩ := flushType_some hs hf
    refine ⟨_, r, st', hf, ?_, fun _ _ _ _ hE hne => hother hE hne⟩
    cases r with
    | error e => exact herr e rfl
    | ok n => exact ⟨hok n rfl, fun k => (hclean n rfl k).mpr (h k)⟩

/-- A flush returns and empties the database exactly when each key, if it has entries at all,
is found by the scan and removable. -/
theorem flush_empties_iff (h : Reached st.store) (db : DB) :
    ((∀ env, Flushes db env st) ↔ ∀ T k, Flushable db st.store T k) ∧
      ∀ T, (∀ env, FlushesType db env T st) ↔ ∀ k, Flushable db st.store T k := by
  have hs := h.wf
  have hnd : flushOrder.Nodup := by decide
  refine ⟨⟨fun hf T k => ?_, fun hf env => ?_⟩, fun T => flushesType_iff hs⟩
  · obtain ⟨fuel, r, st', hflush, hr, -⟩ := hf (Env.quiet 0)
    cases r with
    | error e =>
      obtain ⟨s, b, hc⟩ := hr
      cases hc
    | ok n =>
      exact ((flushEach_some hs hnd hflush).2 n rfl T (mem_flushOrder) k).mp (hr.2 T k)
  · have hfuel : ∀ T ∈ flushOrder, (db.keysOf st.store T).length <
        (flushOrder.map fun T => (db.keysOf st.store T).length).sum + 1 := by
      intro T _
      cases T <;> simp only [flushOrder, List.map_cons, List.sum_cons] <;> omega
    obtain ⟨r, st', hflush, hok, herr⟩ := flushEach_returns hs hnd (fun T _ => hf T) hfuel 0
    obtain ⟨hother, hclean⟩ := flushEach_some hs hnd hflush
    refine ⟨_, r, st', hflush, ?_, fun _ _ _ _ hE hne => hother hE (.inl hne)⟩
    cases r with
    | error e => exact herr e rfl
    | ok n =>
      refine ⟨by rw [hok n rfl, Int64.zero_add], fun T k => ?_⟩
      exact (hclean n rfl T (mem_flushOrder) k).mpr (hf T k)

theorem flushable_single (hk : k ≠ []) (key : Bytes) :
    Flushable db (OrderedMap.empty.applyOp (.put (db.encodeKVKey k) v)) T key := by
  by_cases hown : T = .KV ∧ key = k
  · obtain ⟨rfl, rfl⟩ := hown
    refine .inr ⟨hk, ?_, trivial⟩
    have hkey : (WriteOp.put (db.encodeKVKey key) v).key = db.plainKey (DataType.plain .KV) key :=
      rfl
    rw [get_applyOp, if_pos hkey]
    simp
  · refine .inl fun ek hek => ?_
    rw [get_applyOp, OrderedMap.get_empty, if_neg]
    rintro rfl
    rcases hek with hek | hek
    · exact hown ((Stored.kv k).owner hek).2
    · have hexp := hek ▸ ExpireEntry.expMeta
      exact (DataEntry.kv k).not_expire hexp

theorem flush_empties_string : Flushes DB.zero (Env.quiet 0)
    (exec (Env.quiet 0) (DB.zero.Set [107] [118]) State.empty).2 := by
  have hreached := @Reached.call State.empty DB.zero (Env.quiet 0) (.write (.Set [107] [118]))
    .empty
  refine (flush_empties_iff hreached DB.zero).1.mpr (fun T k => ?_) (Env.quiet 0)
  exact flushable_single (List.cons_ne_nil 107 []) k

theorem flushType_nil (hnil : pageOf db st.store T = []) (fuel : ℕ) :
    db.flushType env (fuel + 1) T st = some (.ok 0, st) := by
  rw [flushType, flushLoop_succ, if_pos hnil]
  rfl

theorem FlushAll_never_returns (hs : StoreWf st.store) (hkv : pageOf db st.store .KV = [])
    (hlist : pageOf db st.store .LIST = []) (hhash : pageOf db st.store .HASH = [])
    (hne : key ≠ []) (h : SizeStays db st.store key)
    (henv : ∀ s b, commit env s b = .ok (s.applyBatch b)) (fuel : ℕ) :
    db.FlushAll env fuel st = none := by
  cases fuel with
  | zero => rfl
  | succ fuel =>
    have hzset : db.flushType env (fuel + 1) .ZSET st = none := by
      rw [flushType, flushLoop_never_returns hs rfl hne h henv]
      rfl
    rw [FlushAll_eq]
    simp [flushOrder, flushEach, flushType_nil hkv, flushType_nil hlist, flushType_nil hhash, hzset]

theorem flush_not_empty :
    (∃ st, Reached st.store ∧ ∀ fuel, DB.zero.FlushAll (Env.quiet 0) fuel st = none) ∧
      ∃ st st' : State, Reached st.store ∧
        DB.zero.FlushAll (Env.quiet 0) 1 st = some (.ok 0, st') ∧
        st'.store.get (DB.zero.lEncodeListKey [107] listInitialSeq) = some [118] := by
  constructor
  · have hreached : Reached (run DB.zero [(Env.quiet 0, .write (.ZAdd [107] [⟨1, [109]⟩])),
        (Env.quiet 0, .write (.ZRemRangeByLex [107] none none RangeClose))] State.empty).store :=
      .call DB.zero (Env.quiet 0) (.write (.ZRemRangeByLex [107] none none RangeClose))
        (.call DB.zero (Env.quiet 0) (.write (.ZAdd [107] [⟨1, [109]⟩])) .empty)
    refine ⟨_, hreached, FlushAll_never_returns hreached.wf (by decide) (by decide) (by decide)
      (List.cons_ne_nil 107 []) ⟨by decide, .inr fun n hn => ?_⟩ (commit_quiet 0)⟩
    have hone : Except.ok n = .ok 1 := hn.symm.trans (by decide)
    cases hone
    decide
  · exact ⟨_, _, @Reached.call State.empty DB.zero (Env.quiet 0) (.write (.LSet [107] 0 [118]))
      .empty, rfl, rfl⟩

end

end LedisDB
