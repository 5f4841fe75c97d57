import LiburingServer.CacheLeases
import LiburingServer.TcpPointers
import LiburingServer.WebFrame

/-! The leases of the web server. A queue entry that points to the buffer of a cache slot is put there by a
fetch, for which its client gets a lease of the slot. The lease ends when the client is killed, whether
its connection is writing or not. -/

namespace LiburingServer

variable {N : ℕ}

/-- A pointer that a fetch returns leads to the slot that was fetched, which is not empty. -/
theorem CacheFetchItem.buff_of_ptr (item : CacheFetchItem N) {i : Fin N} (h : item.ptr = .cached i) :
    item.buff = some i ∧ item.bytes ≠ [] := by
  unfold ptr at h
  split at h
  · rename_i j hj
    split at h
    · cases h
    · rename_i hbytes
      rw [hj, Fin.ext (Ptr.cached.inj h)]
      exact ⟨rfl, hbytes⟩
  · cases h

namespace WebServer

/-- The client of slot `k`; there is none before the first accept. -/
def clientAt (w : WebServer N) (k : ℕ) : TcpClient := w.tcpClients[k]?.getD {}

/-- The cache is the same, and the same clients are marked as using a file. -/
structure SameFiles (w w' : WebServer N) : Prop where
  cache : w'.webCache = w.webCache
  marks : ∀ k, (w'.clientAt k).usingFile = (w.clientAt k).usingFile

/-- A callback that leaves the files alone and queues no pointer. -/
structure KeepsFiles (w : WebServer N) (r : WebServer N × List TcpCall) : Prop where
  files : w.SameFiles r.1
  calls : ∀ c ∈ r.2, c.Pointless

/-- The client of slot `i` can be killed while `ptrs` are still to be read: if it is marked as using a
file, the cache slot that it fetched last was not freed, and none of them points to its buffer. -/
def MayKill (w : WebServer N) (i : ℕ) (ptrs : List Ptr) : Prop :=
  (w.clientAt i).usingFile = true → ∀ j, w.webCache.clientIdxToCacheIdx i = some j →
    j ∉ w.webCache.freeIdxs ∧ .cached j ∉ ptrs

instance (w : WebServer N) (i : ℕ) (ptrs : List Ptr) : Decidable (w.MayKill i ptrs) :=
  inferInstanceAs (Decidable ((w.clientAt i).usingFile = true → ∀ j ∈ w.webCache.clientIdxToCacheIdx i,
    j ∉ w.webCache.freeIdxs ∧ .cached j ∉ ptrs))

/-- The locks of the cache cover what is owed: a client that is owed the buffer of a slot has a lease of
it. -/
def Covers (w : WebServer N) (owed : ℕ → Fin N → Prop) : Prop :=
  ∃ holders, w.webCache.Leased w.clientAt holders ∧ ∀ k i, owed k i → k ∈ holders i

variable {w w' w'' : WebServer N} {owed owed' : ℕ → Fin N → Prop} {i k : ℕ} {env : WebEnv}
  {cs cs' : List TcpCall}

theorem clientAt_eq {client : TcpClient} (h : w.tcpClients[i]? = some client) : w.clientAt i = client := by
  simp [clientAt, h]

theorem clientAt_setTcpClient {client client' : TcpClient} (h : w.tcpClients[i]? = some client) :
    (w.setTcpClient i client').clientAt = Function.update w.clientAt i client' := by
  have hlt : i < w.tcpClients.length := (List.getElem?_eq_some_iff.mp h).1
  funext k
  by_cases hk : k = i
  · subst hk
    simp [clientAt, setTcpClient, hlt]
  · simp [clientAt, setTcpClient, hk, List.getElem?_set_ne (Ne.symm hk)]

theorem clientAt_newTcpClient (w : WebServer N) (i : ℕ) :
    (w.newTcpClient i).clientAt = Function.update w.clientAt i {} := by
  funext k
  by_cases hk : k = i
  · subst hk
    have hlt : k < w.tcpClients.length + (k + 1 - w.tcpClients.length) := by omega
    simp [clientAt, newTcpClient, hlt]
  · simp only [clientAt, newTcpClient, List.getElem?_set_ne (Ne.symm hk), Function.update_of_ne hk]
    rcases Nat.lt_or_ge k w.tcpClients.length with hlt | hge
    · rw [List.getElem?_append_left hlt]
    · rw [List.getElem?_append_right hge, List.getElem?_eq_none hge, List.getElem?_replicate]
      split <;> rfl

theorem sameFiles_refl (w : WebServer N) : w.SameFiles w := ⟨rfl, fun _ => rfl⟩

theorem SameFiles.trans (h : w.SameFiles w') (h' : w'.SameFiles w'') : w.SameFiles w'' :=
  ⟨h'.cache.trans h.cache, fun k => (h'.marks k).trans (h.marks k)⟩

theorem KeepsFiles.append (h : w.KeepsFiles (w', cs)) (h' : w'.KeepsFiles (w'', cs')) :
    w.KeepsFiles (w'', cs ++ cs') :=
  ⟨h.files.trans h'.files, fun c hc => (List.mem_append.mp hc).elim (h.calls c) (h'.calls c)⟩

theorem KeepsFiles.andCall (h : w.KeepsFiles (w', cs)) (hcs : ∀ c ∈ cs', c.Pointless) :
    w.KeepsFiles (w', cs ++ cs') := h.append ⟨sameFiles_refl w', hcs⟩

/-- A change of a client that does not mark it or take its mark away. -/
theorem sameFiles_setTcpClient {client client' : TcpClient} (h : w.tcpClients[i]? = some client)
    (husing : client'.usingFile = client.usingFile) : w.SameFiles (w.setTcpClient i client') := by
  refine ⟨rfl, fun k => ?_⟩
  rw [clientAt_setTcpClient h]
  by_cases hk : k = i
  · subst hk
    rw [Function.update_self, clientAt_eq h, husing]
  · rw [Function.update_of_ne hk]

theorem sameFiles_broadcastUsed {info : ℤ} (h : w.broadcastUsed info = some w') : w.SameFiles w' := by
  unfold broadcastUsed at h
  split at h
  · obtain rfl := Option.some.inj h
    exact sameFiles_refl w
  · split at h
    · cases h
    · split at h
      · cases h
      · obtain rfl := Option.some.inj h
        split
        · exact ⟨rfl, fun _ => rfl⟩
        · exact ⟨rfl, fun _ => rfl⟩

theorem closeWsConnectionReq_files {idx : ℤ} {closed : Bool} {r : WebServer N × List TcpCall}
    (h : w.closeWsConnectionReq idx closed = some r) : w.KeepsFiles r := by
  obtain ⟨client, -, rfl⟩ := Option.map_eq_some_iff.mp h
  exact ⟨⟨rfl, fun _ => rfl⟩, by cases closed <;> simp [TcpCall.Pointless]⟩

theorem sameFiles_newWsClient {index : ℤ} (h : w.newWsClient i = some (w', index)) : w.SameFiles w' := by
  unfold newWsClient at h
  dsimp only at h
  split at h
  · split at h
    · cases h
    · obtain ⟨rfl, -⟩ := by simpa using h
      exact ⟨rfl, fun _ => rfl⟩
  · obtain ⟨rfl, -⟩ := by simpa using h
    exact ⟨rfl, fun _ => rfl⟩

theorem websocketAcceptReadCb_files {key : Bytes} {r : WebServer N × List TcpCall}
    (h : w.websocketAcceptReadCb env i key = some r) : w.KeepsFiles r := by
  unfold websocketAcceptReadCb at h
  dsimp only at h
  split at h
  · cases h
  · rename_i w₁ index hnew
    split at h
    · cases h
    · rename_i client hclient
      obtain rfl := Option.some.inj h
      refine ⟨(sameFiles_newWsClient hnew).trans (sameFiles_setTcpClient hclient ?_), ?_⟩
      · rfl
      · simp [TcpCall.Pointless]

theorem processFrame_files {idx : ℤ} {frame : Bytes} {closed : Bool}
    (h : w.processFrame idx frame = some (w', cs, closed)) : w.KeepsFiles (w', cs) := by
  unfold processFrame at h
  split at h
  · obtain ⟨rfl, rfl, -⟩ := by simpa using h
    exact ⟨sameFiles_refl w, by simp⟩
  · split at h
    · split_ifs at h
      · obtain ⟨rfl, rfl, -⟩ := by simpa using h
        exact ⟨⟨rfl, fun _ => rfl⟩, by simp⟩
      · obtain ⟨rfl, rfl, -⟩ := by simpa using h
        exact ⟨⟨rfl, fun _ => rfl⟩, by simp⟩
      · obtain ⟨⟨w₁, cs₁⟩, hclose, heq⟩ := Option.map_eq_some_iff.mp h
        obtain ⟨rfl, rfl, -⟩ := by simpa using heq
        obtain ⟨⟨hcache, hmarks⟩, hcalls⟩ := closeWsConnectionReq_files hclose
        exact ⟨⟨hcache, hmarks⟩, hcalls⟩
      · obtain ⟨rfl, rfl, -⟩ := by simpa using h
        exact ⟨⟨rfl, fun _ => rfl⟩, by simp [TcpCall.Pointless]⟩
      · obtain ⟨rfl, rfl, -⟩ := by simpa using h
        exact ⟨sameFiles_refl w, by simp⟩
    · cases h

theorem processFrames_files {idx : ℤ} {frames : List Bytes} {closed : Bool}
    (h : processFrames idx frames w = some (w', cs, closed)) : w.KeepsFiles (w', cs) := by
  induction frames generalizing w cs closed with
  | nil =>
      obtain ⟨rfl, rfl, -⟩ := by simpa [processFrames] using h
      exact ⟨sameFiles_refl w, by simp⟩
  | cons frame frames ih =>
      unfold processFrames at h
      split at h
      · cases h
      · rename_i hframe
        obtain ⟨rfl, rfl, -⟩ := by simpa using h
        exact processFrame_files hframe
      · rename_i hframe
        obtain ⟨⟨w₂, cs₂, closed₂⟩, hrest, heq⟩ := Option.map_eq_some_iff.mp h
        obtain ⟨rfl, rfl, -⟩ := by simpa using heq
        exact (processFrame_files hframe).append (ih hrest)

theorem websocketProcessReadCb_files {buffer : Bytes} {r : WebServer N × List TcpCall}
    (h : w.websocketProcessReadCb env i buffer = some r) : w.KeepsFiles r := by
  unfold websocketProcessReadCb at h
  dsimp only at h
  split at h
  · cases h
  · split at h
    · cases h
    · split at h
      · cases h
      · split at h
        · obtain ⟨⟨w₁, cs₁, closed⟩, hframes, rfl⟩ := Option.map_eq_some_iff.mp h
          obtain ⟨⟨hcache, hmarks⟩, hcalls⟩ := processFrames_files hframes
          refine KeepsFiles.andCall ⟨⟨hcache, hmarks⟩, hcalls⟩ ?_
          cases closed <;> simp [TcpCall.Pointless]
        · obtain ⟨⟨w₁, cs₁⟩, hclose, rfl⟩ := Option.map_eq_some_iff.mp h
          obtain ⟨⟨hcache, hmarks⟩, hcalls⟩ := closeWsConnectionReq_files hclose
          exact KeepsFiles.andCall ⟨⟨hcache, hmarks⟩, hcalls⟩ (by simp [TcpCall.Pointless])

theorem sameFiles_eventCb (env : WebEnv) (w : WebServer N) : w.SameFiles (w.eventCb env).1 := by
  unfold eventCb
  dsimp only
  split
  · exact ⟨rfl, fun _ => rfl⟩
  · exact ⟨rfl, fun _ => rfl⟩

/-! ### What is owed -/

theorem MayKill.mono {ptrs ptrs' : List Ptr} (h : w.MayKill k ptrs)
    (hsub : ∀ j : Fin N, .cached j ∈ ptrs' → .cached j ∈ ptrs) : w.MayKill k ptrs' :=
  fun husing j hj => ⟨(h husing j hj).1, fun hmem => (h husing j hj).2 (hsub j hmem)⟩

theorem MayKill.sameFiles {ptrs : List Ptr} (h : w.MayKill k ptrs) (hs : w.SameFiles w') : w'.MayKill k ptrs := by
  unfold MayKill
  rw [hs.cache, hs.marks]
  exact h

/-- A client that was killed can be killed again, and killing it does not matter to the others. -/
theorem MayKill.killClient {ptrs : List Ptr} (h : w.MayKill k ptrs) (hkill : w.killClient i = some w') :
    w'.MayKill k ptrs := by
  unfold WebServer.killClient at hkill
  split at hkill
  · cases hkill
  · rename_i client hclient
    obtain ⟨⟨cache, client'⟩, hfinished, rfl⟩ := Option.map_eq_some_iff.mp hkill
    suffices hset : MayKill { w.setTcpClient i { client' with usingFile := false } with webCache := cache } k ptrs by
      dsimp only
      split
      · exact hset
      · exact hset
    intro husing j hj
    have hclients : ((w.setTcpClient i { client' with usingFile := false }).clientAt k).usingFile = true := husing
    rw [clientAt_setTcpClient hclient] at hclients
    have hk : k ≠ i := by
      rintro rfl
      simp at hclients
    rw [Function.update_of_ne hk] at hclients
    rcases Cache.finishedWithItem_cases hfinished with ⟨-, rfl, -⟩ | ⟨-, -, i', -, hmaps, hidx, -⟩
    · exact h hclients j hj
    · have hold : w.webCache.clientIdxToCacheIdx k = some j := by
        rw [← hj]
        show _ = cache.clientIdxToCacheIdx k
        rw [hidx, Function.update_of_ne hk]
      obtain ⟨hfree, hptrs⟩ := h hclients j hold
      exact ⟨hmaps.free ▸ hfree, hptrs⟩

theorem MayKill.closeCb {ptrs : List Ptr} {info : ℤ} (h : w.MayKill k ptrs) (hr : w.closeCb i info = some w') :
    w'.MayKill k ptrs := by
  obtain ⟨w₁, hused, hkill⟩ := Option.bind_eq_some_iff.mp hr
  exact (h.sameFiles (sameFiles_broadcastUsed hused)).killClient hkill

namespace Covers

theorem mono (h : w.Covers owed) (hle : ∀ k i, owed' k i → owed k i) : w.Covers owed' := by
  obtain ⟨holders, hleased, howed⟩ := h
  exact ⟨holders, hleased, fun k i hk => howed k i (hle k i hk)⟩

theorem sameFiles (h : w.Covers owed) (hs : w.SameFiles w') : w'.Covers owed := by
  obtain ⟨holders, hleased, howed⟩ := h
  refine ⟨holders, ?_, howed⟩
  rw [hs.cache]
  exact hleased.of_marks fun k hk => (hs.marks k).symm.trans hk

/-- A slot whose buffer is owed to a client is locked and not free. -/
theorem locked (h : w.Covers owed) {slot : Fin N} (howed : owed k slot) :
    0 < (w.webCache.cacheBuffer slot).lockNumber ∧ slot ∉ w.webCache.freeIdxs := by
  obtain ⟨holders, hleased, hholders⟩ := h
  have hmem := hholders k slot howed
  refine ⟨hleased.covered.pos hmem, fun hfree => ?_⟩
  rw [(hleased.fresh slot hfree).2.2] at hmem
  exact Finset.notMem_empty k hmem

/-- A new connection is not marked. -/
theorem newTcpClient (h : w.Covers owed) (i : ℕ) : (w.newTcpClient i).Covers owed := by
  obtain ⟨holders, hleased, howed⟩ := h
  refine ⟨holders, hleased.of_marks fun k hk => ?_, howed⟩
  rw [clientAt_newTcpClient] at hk
  by_cases heq : k = i
  · simp [heq] at hk
  · rwa [Function.update_of_ne heq] at hk

/-- A client that is killed gives up at most its lease of the slot that it fetched last, which it is not
owed any more. -/
theorem killClient (h : w.Covers owed) (hkill : w.killClient i = some w') {ptrs : List Ptr}
    (hmay : w.MayKill i ptrs) (hle : ∀ k j, owed' k j → owed k j ∧ (k = i → .cached j ∈ ptrs)) : w'.Covers owed' := by
  obtain ⟨holders, hleased, howed⟩ := h
  have hslot : (w.clientAt i).usingFile = true → ∀ j, w.webCache.clientIdxToCacheIdx i = some j →
      j ∉ w.webCache.freeIdxs := fun husing j hj => (hmay husing j hj).1
  have hkept : ∀ k j, owed' k j → ¬(k = i ∧ (w.clientAt i).usingFile = true ∧
      w.webCache.clientIdxToCacheIdx k = some j) := by
    rintro k j hk ⟨rfl, husing, hj⟩
    exact (hmay husing j hj).2 ((hle k j hk).2 rfl)
  unfold WebServer.killClient at hkill
  split at hkill
  · cases hkill
  · rename_i client hclient
    obtain ⟨⟨cache, client'⟩, hfinished, rfl⟩ := Option.map_eq_some_iff.mp hkill
    have hsame := clientAt_eq hclient
    rw [hsame] at hslot hkept
    obtain ⟨holders', hleased', hholders⟩ := hleased.finishedWithItem (by rw [hsame]) hslot hfinished
      (show ({ client' with usingFile := false } : TcpClient).usingFile = false from rfl)
    rw [← clientAt_setTcpClient hclient] at hleased'
    have hcovers : ∀ k j, owed' k j → k ∈ holders' j := fun k j hk =>
      hholders j k (howed k j (hle k j hk).1) (hkept k j hk)
    dsimp only
    split
    · exact ⟨holders', hleased', hcovers⟩
    · exact ⟨holders', hleased', hcovers⟩

/-- The fetch of a cached path leases what it returns to its client, whether that was marked or not. -/
theorem fetched {cache cache' : Cache N} {clients : ℕ → TcpClient} {holders : Fin N → Finset ℕ}
    (hleased : cache.Leased clients holders) (howed : ∀ k j, owed k j → k ∈ holders j)
    (hclients : ∀ k, k ≠ i → clients k = w.clientAt k) {client client' : TcpClient} {p : Bytes} {slot : Fin N}
    {item : CacheFetchItem N} (hclient : w.tcpClients[i]? = some client)
    (hpath : cache.filepathToCacheIdx p = some slot)
    (hout : (cache.data slot).outdated = true → (cache.data slot).lockNumber = 0)
    (hfetch : cache.fetchItem p i client = some (cache', client', item)) (marked : TcpClient)
    (stored : List (Bytes × Bytes)) :
    Covers { w.setTcpClient i marked with webCache := cache', stored := stored } fun k j =>
      owed k j ∨ ∃ c ∈ [TcpCall.writeConnectionPtr i item.ptr item.size], c.Sends k j := by
  obtain ⟨holders', hleased', hgrow, hitem⟩ := hleased.fetchItem hpath hout hfetch marked
  have hsame : Function.update clients i marked = (w.setTcpClient i marked).clientAt := by
    rw [clientAt_setTcpClient hclient]
    funext k
    by_cases hk : k = i
    · simp [hk]
    · simp [hk, hclients k hk]
  rw [hsame] at hleased'
  refine ⟨holders', hleased', fun k j hk => ?_⟩
  rcases hk with hk | ⟨c, hc, hsends⟩
  · exact hgrow j (howed k j hk)
  · obtain rfl := List.mem_singleton.mp hc
    obtain ⟨rfl, hptr⟩ := hsends
    obtain ⟨hbuff, hbytes⟩ := item.buff_of_ptr hptr
    exact hitem j hbuff hbytes

/-- A file that is sent from the cache is leased, and one that is read is not owed yet. -/
theorem sendFileRequest (h : w.Covers owed) {n : ℕ} {p : Bytes} {accept opened : Bool} {code : ℕ}
    (hout : ¬(env.files n).1 < 0 → ∀ j, w.webCache.filepathToCacheIdx p = some j →
      (w.webCache.cacheBuffer j).outdated = true → (w.webCache.cacheBuffer j).lockNumber = 0)
    (hsend : w.sendFileRequest env n i p accept code = some (w', cs, opened)) :
    w'.Covers fun k j => owed k j ∨ ∃ c ∈ cs, c.Sends k j := by
  unfold WebServer.sendFileRequest at hsend
  dsimp only at hsend
  split at hsend
  · obtain ⟨rfl, rfl, -⟩ := by simpa using hsend
    exact h.mono fun k j hk => hk.resolve_right (by simp)
  · rename_i hopened
    split at hsend
    · cases hsend
    · rename_i client hclient
      split at hsend
      · cases hsend
      · rename_i cache client' item hfetch
        split at hsend
        · cases hsend
        · cases hpath : w.webCache.filepathToCacheIdx p with
          | none =>
              obtain ⟨-, rfl, rfl, rfl⟩ := (Cache.fetchItem_cases hfetch).resolve_right
                fun ⟨i, hsome, _⟩ => by simp [hpath] at hsome
              simp only [Bool.false_eq_true, if_false, Option.some.injEq, Prod.mk.injEq] at hsend
              obtain ⟨rfl, rfl, -⟩ := hsend
              refine (h.sameFiles (sameFiles_setTcpClient hclient ?_)).mono fun k j hk => ?_
              · rfl
              · exact hk.resolve_right (by simp [TcpCall.Sends])
          | some slot =>
              obtain ⟨holders, hleased, howed⟩ := h
              have hfetched := fetched hleased howed (fun _ _ => rfl) hclient hpath (hout hopened slot hpath) hfetch
              split at hsend
              · obtain ⟨rfl, rfl, -⟩ := by simpa using hsend
                exact hfetched client' w.stored
              · obtain ⟨rfl, rfl, -⟩ := by simpa using hsend
                refine (hfetched _ w.stored).mono fun k j hk => Or.inl ?_
                exact hk.resolve_right (by simp [TcpCall.Sends])

/-- A call that queues no pointer is owed nothing. -/
theorem andCall (h : w.Covers fun k j => owed k j ∨ ∃ c ∈ cs, c.Sends k j) (hcs' : ∀ c ∈ cs', c.Pointless) :
    w.Covers fun k j => owed k j ∨ ∃ c ∈ cs ++ cs', c.Sends k j := by
  refine h.mono fun k j hk => hk.imp_right fun ⟨c, hc, hsends⟩ => ⟨c, ?_, hsends⟩
  exact (List.mem_append.mp hc).resolve_right fun hc' => (hcs' c hc').not_sends k j hsends

theorem keepsFiles (h : w.Covers owed) {r : WebServer N × List TcpCall} (hr : w.KeepsFiles r) :
    r.1.Covers fun k j => owed k j ∨ ∃ c ∈ r.2, c.Sends k j :=
  (h.sameFiles hr.files).mono fun k j hk =>
    hk.resolve_right fun ⟨c, hc, hsends⟩ => (hr.calls c hc).not_sends k j hsends

theorem respond (h : w.Covers owed) {req : HttpRequest} {r : WebServer N × List TcpCall}
    (hout : ∀ p, openedFile env req = some p → ∀ j, w.webCache.filepathToCacheIdx p = some j →
      (w.webCache.cacheBuffer j).outdated = true → (w.webCache.cacheBuffer j).lockNumber = 0)
    (hr : w.respond env i req = some r) :
    r.1.Covers fun k j => owed k j ∨ ∃ c ∈ r.2, c.Sends k j := by
  have hpointless : ∀ {again : List TcpCall}, (∀ c ∈ again, c = .readConnection i) → ∀ c ∈ again, c.Pointless := by
    intro again hagain c hc
    rw [hagain c hc]
    trivial
  rcases respond_eq_some hr with ⟨r₁, again, -, hr₁, rfl, hagain⟩ |
    ⟨-, ⟨q, w₁, cs₁, again, hq, hsent, rfl, hagain⟩ | ⟨-, rfl⟩⟩
  · exact (h.keepsFiles (websocketAcceptReadCb_files hr₁)).andCall (hpointless hagain)
  · have hopened : openedFile env req = some q.filepath := by simp [openedFile_eq, hq]
    exact (h.sendFileRequest (fun _ => hout _ hopened) hsent).andCall (hpointless hagain)
  · exact h.keepsFiles ⟨sameFiles_refl w, by simp⟩

/-- The read callback keeps the leases, or it kills its client, whose connection is no active websocket and
has sent what is no request. -/
theorem readCb (h : w.Covers owed) {buffer : Bytes} {r : WebServer N × List TcpCall}
    (hout : ∀ p, w.diskRead env buffer = some p → ∀ j, w.webCache.filepathToCacheIdx p = some j →
      (w.webCache.cacheBuffer j).lockNumber = 0)
    (hr : w.readCb env i buffer = some r) :
    (r.1.Covers fun k j => owed k j ∨ ∃ c ∈ r.2, c.Sends k j) ∨
      (r.2 = [.closeConnection i] ∧ w.killClient i = some r.1 ∧ isValidHttpReq buffer = false ∧
        i ∉ w.activeWebsocketConnectionsClientIdxs) := by
  unfold WebServer.readCb at hr
  split at hr
  · rename_i hvalid
    split at hr
    · cases hr
    · rename_i req hreq
      refine Or.inl (h.respond (fun p hp j hj hold => hout p ?_ j hj) hr)
      have hmissed : w.webCache.serves p = false := by simp [Cache.serves, hj, hold]
      simp [diskRead, hvalid, hreq, hp, hmissed]
  · rename_i hvalid
    split at hr
    · obtain ⟨⟨w₁, cs₁⟩, hws, rfl⟩ := Option.map_eq_some_iff.mp hr
      exact Or.inl ((h.keepsFiles (websocketProcessReadCb_files hws)).andCall (by simp [TcpCall.Pointless]))
    · obtain ⟨w₁, hkill, rfl⟩ := Option.map_eq_some_iff.mp hr
      exact Or.inr ⟨rfl, hkill, by simpa using hvalid, ‹_›⟩

/-- The write callback keeps the leases, or it kills its client, whose connection is no websocket. -/
theorem writeCb (h : w.Covers owed) (hclosing : w.NoneClosing) {info : ℤ} {r : WebServer N × List TcpCall}
    (hr : w.writeCb i info = some r) :
    (r.1.Covers owed ∧ r.2 = []) ∨
      (r.2 = [.closeConnection i] ∧ w.NoWebsocket i ∧ ∃ w₁, w.SameFiles w₁ ∧ w₁.killClient i = some r.1) := by
  unfold WebServer.writeCb at hr
  split at hr
  · cases hr
  · rename_i w₁ hused
    have hfiles := sameFiles_broadcastUsed hused
    obtain ⟨hclients, -, -, hws, hall⟩ := broadcastUsed_rest hused
    split at hr
    · cases hr
    · rename_i client hclient
      split at hr
      · -- a websocket is closed only if it is marked
        unfold closeWsConnectionPotentialConfirm at hr
        split at hr
        · cases hr
        · rename_i wsClient hwsClient
          have hopen : wsClient.close = false := wsClient_close hwsClient (by rwa [NoneClosing, hws])
          simp only [hopen, Bool.false_eq_true, if_false] at hr
          split at hr
          · obtain rfl := Option.some.inj hr
            exact Or.inl ⟨h.sameFiles hfiles, rfl⟩
          · obtain rfl := Option.some.inj hr
            exact Or.inl ⟨h.sameFiles ⟨hfiles.cache, hfiles.marks⟩, rfl⟩
      · rename_i hnone
        obtain ⟨w₂, hkill, rfl⟩ := Option.map_eq_some_iff.mp hr
        refine Or.inr ⟨rfl, fun client' hclient' => ?_, w₁, hfiles, hkill⟩
        rw [hclients] at hclient
        rw [hall] at hnone
        obtain rfl : client = client' := by simpa [hclient] using hclient'
        exact hnone

/-- The close callback gives up no more than the lease of its client. -/
theorem closeCb (h : w.Covers owed) {ptrs : List Ptr} (howed : ∀ j, owed i j → .cached j ∈ ptrs)
    (hmay : w.MayKill i ptrs) {info : ℤ} (hr : w.closeCb i info = some w') : w'.Covers owed := by
  obtain ⟨w₁, hused, hkill⟩ := Option.bind_eq_some_iff.mp hr
  have hfiles := sameFiles_broadcastUsed hused
  refine (h.sameFiles hfiles).killClient hkill (hmay.sameFiles hfiles) fun k j hk => ⟨hk, ?_⟩
  rintro rfl
  exact howed j hk

/-- The end of a file read: the file is inserted and leased, or it is queued without the cache. -/
theorem customReadCb (h : w.Covers owed) {clientIdx : Option ℕ} {fd : ℤ} {buff : Bytes}
    {r : WebServer N × List TcpCall}
    (hmarks : ∀ i, clientIdx = some i → ∀ j, Cache.cbegin w.webCache.freeIdxs env.first = some j →
      ∀ k, k ≠ i → (w.clientAt k).usingFile = true → w.webCache.clientIdxToCacheIdx k ≠ some j)
    (hr : w.customReadCb env clientIdx fd buff = some r) :
    r.1.Covers fun k j => owed k j ∨ ∃ c ∈ r.2, c.Sends k j := by
  unfold WebServer.customReadCb at hr
  split at hr
  · obtain rfl := Option.some.inj hr
    obtain ⟨holders, hleased, howed⟩ := h
    refine ⟨holders, hleased.inotifyEventHandler _, fun k j hk => howed k j ?_⟩
    exact hk.resolve_right (by simp [TcpCall.Sends])
  · split at hr
    · cases hr
    · rename_i i
      split at hr
      · cases hr
      · rename_i client hclient
        dsimp only at hr
        split at hr
        · cases hr
        · rename_i cache hinsert
          obtain ⟨⟨cache', client', item⟩, hfetch, rfl⟩ := Option.map_eq_some_iff.mp hr
          obtain ⟨holders, hleased, howed⟩ := h
          -- the client is marked anew by the fetch
          have hunmarked : w.webCache.Leased (Function.update w.clientAt i {}) holders := by
            refine hleased.of_marks fun k hk => ?_
            by_cases heq : k = i
            · simp [heq] at hk
            · rwa [Function.update_of_ne heq] at hk
          have hunused : ∀ j, Cache.cbegin w.webCache.freeIdxs env.first = some j → ∀ k,
              (Function.update w.clientAt i {} k).usingFile = true → w.webCache.clientIdxToCacheIdx k ≠ some j := by
            intro j hj k hk
            by_cases heq : k = i
            · simp [heq] at hk
            · rw [Function.update_of_ne heq] at hk
              exact hmarks i rfl j hj k heq hk
          obtain ⟨hinserted, slot, hpath, hfresh⟩ := hunmarked.tryInsertItem hunused hinsert
          exact fetched hinserted howed (fun k hk => Function.update_of_ne hk _ _) hclient hpath (by simp [hfresh])
            hfetch client' _
        · obtain rfl := Option.some.inj hr
          exact h.keepsFiles ⟨sameFiles_refl w, by simp [TcpCall.Pointless]⟩

end Covers

end WebServer

end LiburingServer
