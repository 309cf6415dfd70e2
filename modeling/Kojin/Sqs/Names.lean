/-
  Sqs/Names.lean --- the names of queues (`kojin-sqs`: `SqsBroker::new`,
  `resolve_queue_url` and `queue_name_from_url` of `broker.rs`).

  A queue is configured by its URL and called by its name, the last segment of the URL
  without `.fifo`.  The name is looked for among the names of the configured URLs, in the
  order of a hash map, and then among the URLs themselves:

      http://sqs/orders         orders
      http://sqs/orders.fifo    orders
      orders                    orders

  Two URLs with one name cannot both be found by it, and which one is found depends on the
  map.  A URL that is the name of another is not found at all.
-/
import Kojin.Foundation.Segments
import Kojin.Sqs.Broker

set_option autoImplicit false

namespace Kojin.Sqs

open Kojin.Foundation

/-! ## Names -/

/-- The last segment of a URL, without `.fifo`, as a list of characters. -/
def baseName (url : String) : List Char :=
  let segment := url.toList.rtakeWhile fun x => !(x == '/')
  if ".fifo".toList <:+ segment then segment.take (segment.length - 5) else segment

/-- The name of a queue is that. -/
theorem toList_queueNameFromUrl (url : String) : (queueNameFromUrl url).toList = baseName url := by
  have hsegment : ((url.splitOn "/").getLastD url).toList =
      url.toList.rtakeWhile fun x => !(x == '/') := toList_getLastD_splitOn url url '/'
  have hends : ((url.splitOn "/").getLastD url).endsWith ".fifo" = true ↔
      ".fifo".toList <:+ url.toList.rtakeWhile fun x => !(x == '/') := by
    rw [String.endsWith, String.Slice.endsWith_string_iff, String.copy_toSlice, hsegment]
  unfold queueNameFromUrl baseName
  dsimp only
  by_cases hfifo : ".fifo".toList <:+ url.toList.rtakeWhile fun x => !(x == '/')
  · rw [if_pos hfifo, if_pos (hends.mpr hfifo), toList_dropEnd, hsegment]
  · rw [if_neg hfifo, if_neg (mt hends.mp hfifo), hsegment]

theorem queueNameFromUrl_eq_iff {url queue : String} :
    queueNameFromUrl url = queue ↔ baseName url = queue.toList := by
  rw [← String.toList_inj, toList_queueNameFromUrl]

namespace SqsBroker

variable {config : SqsConfig} {b b' : SqsBroker}

/-- What `SqsBroker::new` builds: the map has the name of every configured URL, in any
order. -/
structure IsNew (config : SqsConfig) (b : SqsBroker) : Prop where
  config_eq : b.config = config
  nodup : (b.queueNames.map Prod.fst).Nodup
  mem_iff : ∀ e, e ∈ b.queueNames ↔ e.1 ∈ config.queueUrls ∧ e.2 = queueNameFromUrl e.1

/-- `list_queues`: the names in the map. -/
def listQueues (b : SqsBroker) : List String := b.queueNames.map Prod.snd

/-- No URL has the name of another, or is the name of another. -/
def Unambiguous (urls : List String) : Prop :=
  ∀ u ∈ urls, ∀ v ∈ urls, baseName v = baseName u ∨ baseName v = u.toList → v = u

/-! ## The lookup -/

/-- A name of a configured URL leads to a URL of that name. -/
theorem resolve_of_name (hb : IsNew config b) {u queue : String} (hu : u ∈ config.queueUrls)
    (hname : queueNameFromUrl u = queue) :
    ∃ v ∈ config.queueUrls, queueNameFromUrl v = queue ∧ b.resolveQueueUrl queue = some v := by
  have hfound : b.queueNames.find? (fun e => e.2 = queue) ≠ none := by
    rw [ne_eq, List.find?_eq_none]
    intro hnone
    exact hnone (u, queueNameFromUrl u) ((hb.mem_iff _).mpr ⟨hu, rfl⟩) (by simpa using hname)
  obtain ⟨e, he⟩ := Option.ne_none_iff_exists'.mp hfound
  obtain ⟨hmem, hvalue⟩ := (hb.mem_iff e).mp (List.mem_of_find?_eq_some he)
  have hqueue : e.2 = queue := by simpa using List.find?_some he
  refine ⟨e.1, hmem, hvalue.symm.trans hqueue, ?_⟩
  rw [resolveQueueUrl, he]

/-- What is no name may be a URL. -/
theorem resolve_of_url (hb : IsNew config b) {queue : String}
    (hnone : ∀ v ∈ config.queueUrls, queueNameFromUrl v ≠ queue) :
    b.resolveQueueUrl queue = if queue ∈ config.queueUrls then some queue else none := by
  have hmissing : b.queueNames.find? (fun e => e.2 = queue) = none := by
    rw [List.find?_eq_none]
    intro e he hqueue
    obtain ⟨hmem, hvalue⟩ := (hb.mem_iff e).mp he
    exact hnone e.1 hmem (hvalue.symm.trans (by simpa using hqueue))
  rw [resolveQueueUrl, hmissing, hb.config_eq]

/-- Names lead back to their URLs, and to the same ones everywhere, exactly if no URL
has the name of another, or is the name of another; whatever the order of the map. -/
theorem names_resolve_iff (hb : IsNew config b) (hb' : IsNew config b') :
    ((∀ u ∈ config.queueUrls, b.resolveQueueUrl (queueNameFromUrl u) = some u ∧
        b.resolveQueueUrl u = some u) ∧
      (∀ queue, b.resolveQueueUrl queue = b'.resolveQueueUrl queue) ∧
      (∀ u ∈ config.queueUrls, queueNameFromUrl u ∈ b.listQueues)) ↔
      Unambiguous config.queueUrls := by
  constructor
  · rintro ⟨hresolve, -, -⟩ u hu v hv (hsame | hname)
    · -- one name, two URLs
      have heq : queueNameFromUrl v = queueNameFromUrl u := by
        rw [queueNameFromUrl_eq_iff, toList_queueNameFromUrl, hsame]
      have hv' := (hresolve v hv).1
      rw [heq, (hresolve u hu).1] at hv'
      exact (Option.some.inj hv').symm
    · have heq : queueNameFromUrl v = u := queueNameFromUrl_eq_iff.mpr hname
      have hv' := (hresolve v hv).1
      rw [heq, (hresolve u hu).2] at hv'
      exact (Option.some.inj hv').symm
  · intro hunique
    have honly : ∀ u ∈ config.queueUrls, ∀ v ∈ config.queueUrls,
        queueNameFromUrl v = queueNameFromUrl u → v = u := by
      intro u hu v hv heq
      refine hunique u hu v hv (.inl ?_)
      rw [← toList_queueNameFromUrl, heq, toList_queueNameFromUrl]
    have hresolve : ∀ {c : SqsBroker}, IsNew config c → ∀ u ∈ config.queueUrls,
        c.resolveQueueUrl (queueNameFromUrl u) = some u := by
      intro c hc u hu
      obtain ⟨v, hv, hname, hfound⟩ := resolve_of_name hc hu rfl
      rw [hfound, honly u hu v hv hname]
    refine ⟨fun u hu => ⟨hresolve hb u hu, ?_⟩, fun queue => ?_, fun u hu => ?_⟩
    · by_cases hnamed : ∃ v ∈ config.queueUrls, queueNameFromUrl v = u
      · obtain ⟨v, hv, hname⟩ := hnamed
        obtain rfl := hunique u hu v hv (.inr (queueNameFromUrl_eq_iff.mp hname))
        have hself := hresolve hb v hu
        rwa [hname] at hself
      · rw [resolve_of_url hb fun v hv hname => hnamed ⟨v, hv, hname⟩, if_pos hu]
    · by_cases hnamed : ∃ v ∈ config.queueUrls, queueNameFromUrl v = queue
      · obtain ⟨v, hv, rfl⟩ := hnamed
        rw [hresolve hb v hv, hresolve hb' v hv]
      · have hnone : ∀ v ∈ config.queueUrls, queueNameFromUrl v ≠ queue :=
          fun v hv hname => hnamed ⟨v, hv, hname⟩
        rw [resolve_of_url hb hnone, resolve_of_url hb' hnone]
    · exact List.mem_map.mpr ⟨(u, queueNameFromUrl u), (hb.mem_iff _).mpr ⟨hu, rfl⟩, rfl⟩

/-! ## Two names, and one name twice -/

/-- The configuration with the given URLs. -/
def configOf (urls : List String) : SqsConfig := ⟨urls, none, 30, 20⟩

/-- A broker whose map is walked in the given order. -/
def inOrder {urls order : List String} (h : order.Perm urls) : SqsBroker where
  config := configOf urls
  queueNames := order.map fun u => (u, queueNameFromUrl u)
  names e he := by
    obtain ⟨u, hu, rfl⟩ := List.mem_map.mp he
    exact h.mem_iff.mp hu

theorem inOrder_isNew {urls order : List String} (h : order.Perm urls) (hnodup : urls.Nodup) :
    IsNew (configOf urls) (inOrder h) where
  config_eq := rfl
  nodup := by
    have hkeys : (inOrder h).queueNames.map Prod.fst = order := by
      rw [inOrder, List.map_map]
      exact List.map_id order
    rw [hkeys]
    exact h.nodup_iff.mpr hnodup
  mem_iff e := by
    constructor
    · intro he
      obtain ⟨u, hu, rfl⟩ := List.mem_map.mp he
      exact ⟨h.mem_iff.mp hu, rfl⟩
    · rintro ⟨hmem, hvalue⟩
      exact List.mem_map.mpr ⟨e.1, h.mem_iff.mpr hmem, by rw [← hvalue]⟩

/-- Two queues with different names, in both orders. -/
theorem names_resolve_iff_orders :
    (inOrder (List.Perm.refl ["http://sqs/orders.fifo", "http://sqs/mails"])).resolveQueueUrl
        (queueNameFromUrl "http://sqs/orders.fifo") = some "http://sqs/orders.fifo" ∧
      ∀ queue, (inOrder (List.Perm.refl
          ["http://sqs/orders.fifo", "http://sqs/mails"])).resolveQueueUrl queue =
        (inOrder (List.Perm.swap "http://sqs/orders.fifo" "http://sqs/mails"
          [])).resolveQueueUrl queue := by
  have hall := (names_resolve_iff
    (inOrder_isNew (List.Perm.refl ["http://sqs/orders.fifo", "http://sqs/mails"]) (by decide))
    (inOrder_isNew (List.Perm.swap "http://sqs/orders.fifo" "http://sqs/mails" [])
      (by decide))).mpr (by unfold Unambiguous; decide)
  exact ⟨(hall.1 "http://sqs/orders.fifo" List.mem_cons_self).1, hall.2.1⟩

/-- The name of the first queue in the map leads to that queue. -/
theorem resolve_first {urls rest : List String} {u queue : String} (h : (u :: rest).Perm urls)
    (hname : queueNameFromUrl u = queue) : (inOrder h).resolveQueueUrl queue = some u := by
  have hfound : (inOrder h).queueNames.find? (fun e => e.2 = queue) =
      some (u, queueNameFromUrl u) := List.find?_cons_of_pos (by simpa using hname)
  rw [resolveQueueUrl, hfound]

/-- One name for two queues: a standard queue and a FIFO queue of the same name are
configured.  Which one the name leads to depends on the order of the map, so a producer
may send to the one and a worker poll the other; and in either order one of the queues is
not found by its own name. -/
theorem one_name_twice :
    let urls := ["http://sqs/orders", "http://sqs/orders.fifo"]
    let b := inOrder (List.Perm.refl urls)
    let b' := inOrder (List.Perm.swap "http://sqs/orders" "http://sqs/orders.fifo" [])
    urls.Nodup ∧ IsNew (configOf urls) b ∧ IsNew (configOf urls) b' ∧
      queueNameFromUrl "http://sqs/orders" = "orders" ∧
      queueNameFromUrl "http://sqs/orders.fifo" = "orders" ∧
      b.resolveQueueUrl "orders" = some "http://sqs/orders" ∧
      b'.resolveQueueUrl "orders" = some "http://sqs/orders.fifo" ∧
      b.resolveQueueUrl (queueNameFromUrl "http://sqs/orders.fifo") ≠
        some "http://sqs/orders.fifo" ∧
      b'.resolveQueueUrl (queueNameFromUrl "http://sqs/orders") ≠ some "http://sqs/orders" := by
  have hstandard : queueNameFromUrl "http://sqs/orders" = "orders" :=
    queueNameFromUrl_eq_iff.mpr (by decide)
  have hfifo : queueNameFromUrl "http://sqs/orders.fifo" = "orders" :=
    queueNameFromUrl_eq_iff.mpr (by decide)
  refine ⟨by decide, inOrder_isNew _ (by decide), inOrder_isNew _ (by decide), hstandard, hfifo,
    resolve_first _ hstandard, resolve_first _ hfifo, ?_, ?_⟩
  · rw [hfifo, resolve_first _ hstandard]
    decide
  · rw [hstandard, resolve_first _ hfifo]
    decide

end SqsBroker

end Kojin.Sqs
