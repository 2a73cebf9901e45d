import LocalBook.Reader.Importing

/-! What a request tells a device, and what it changes for it, depends on the conversations of
that device only; what it adds is the device's own. A client names new conversations itself,
so a name that is taken shows. -/
namespace LocalBook.Reader

variable {s s' a a' b b' : Server} {device id : Text}

def owns (s : Server) (device id : Text) : Bool :=
  s.conversations.rows.any fun row => row.deviceId = some device && row.id = id

def ownConversations (s : Server) (device : Text) : List Conversation :=
  s.conversations.rows.filter fun row => row.deviceId = some device

def ownMessages (s : Server) (device : Text) : List Message :=
  s.messages.filter fun message => owns s device message.conversationId

/-- The states differ only in what is said in conversations of others. -/
structure SameFor (device : Text) (a b : Server) : Prop where
  shelf : a.shelf = b.shelf
  vault : a.vault = b.vault
  conversations : ownConversations a device = ownConversations b device
  messages : ownMessages a device = ownMessages b device

def Foreign (s : Server) (device id : Text) : Prop :=
  ∃ row, s.conversations.find id = some row ∧ row.deviceId ≠ some device

structure Fresh (s : Server) (stamp : Stamp) : Prop where
  conversation : s.conversations.find stamp.conversationId = none
  user : ∀ message ∈ s.messages, message.id ≠ stamp.userMessageId
  response : ∀ message ∈ s.messages, message.id ≠ stamp.responseMessageId
  apart : stamp.userMessageId ≠ stamp.responseMessageId

/-- The conversation that a request names is somebody else's in both states or in neither, and
the ids it generates are new. -/
def Discreet (device : Text) (a b : Server) : ConversationRequest → Prop
  | .history id _ => Foreign a device id ↔ Foreign b device id
  | .ask request stamp => Fresh a stamp ∧ Fresh b stamp ∧
      ∀ id, nonEmpty request.conversationId = some id → (Foreign a device id ↔ Foreign b device id)
  | .importSession _ => True

/-- Conversations of the device are added, and messages to conversations of the device. -/
structure Grows (device : Text) (s s' : Server) : Prop where
  shelf : s'.shelf = s.shelf
  conversations : ∃ rows, s'.conversations.rows = s.conversations.rows ++ rows ∧
    ∀ row ∈ rows, row.deviceId = some device
  messages : ∃ added, s'.messages = s.messages ++ added ∧
    ∀ message ∈ added, owns s' device message.conversationId = true

section Ownership

theorem find_eq_some {table : Conversations} {row : Conversation} :
    table.find id = some row ↔ row ∈ table.rows ∧ row.id = id := by
  constructor
  · intro found
    exact ⟨List.mem_of_find?_eq_some found,by simpa using List.find?_some found⟩
  · rintro ⟨member,rfl⟩
    cases found : table.find row.id with
    | none => exact absurd (List.mem_map_of_mem member) (Conversations.find_none found)
    | some other =>
      have same : other.id = row.id := by simpa using List.find?_some found
      have first := List.mem_of_find?_eq_some found
      exact congrArg some (List.inj_on_of_nodup_map table.unique first member same)

theorem owns_iff : owns s device id = true ↔
    ∃ row, s.conversations.find id = some row ∧ row.deviceId = some device := by
  simp only [owns,List.any_eq_true,Bool.and_eq_true,decide_eq_true_eq,find_eq_some]
  constructor
  · rintro ⟨row,member,own,same⟩
    exact ⟨row,⟨member,same⟩,own⟩
  · rintro ⟨row,⟨member,same⟩,own⟩
    exact ⟨row,member,own,same⟩

theorem owns_eq_any : owns s device id =
    (ownConversations s device).any fun row => row.id = id := by
  rw [owns,ownConversations,List.any_filter]

theorem SameFor.owns_eq (same : SameFor device a b) : owns a device id = owns b device id := by
  rw [owns_eq_any,owns_eq_any,same.conversations]

theorem find_none_iff : s.conversations.find id = none ↔
    owns s device id = false ∧ ¬ Foreign s device id := by
  cases found : s.conversations.find id with
  | none =>
    refine iff_of_true rfl ⟨Bool.eq_false_iff.mpr fun own => ?_,fun ⟨row,there,_⟩ => ?_⟩
    · obtain ⟨row,there,-⟩ := owns_iff.mp own
      rw [found] at there
      cases there
    · rw [found] at there
      cases there
  | some row =>
    refine iff_of_false (by simp) fun both => ?_
    by_cases own : row.deviceId = some device
    · exact absurd (owns_iff.mpr ⟨row,found,own⟩) (Bool.eq_false_iff.mp both.1)
    · exact both.2 ⟨row,found,own⟩

theorem messagesOf_own (own : owns s device id = true) :
    messagesOf s id = (ownMessages s device).filter fun message => message.conversationId = id := by
  rw [messagesOf,ownMessages,List.filter_filter]
  refine List.filter_congr fun message _ => ?_
  by_cases here : message.conversationId = id
  · simp [here,own]
  · simp [here]

theorem SameFor.messagesOf_eq (same : SameFor device a b) (own : owns a device id = true) :
    messagesOf a id = messagesOf b id := by
  rw [messagesOf_own own,messagesOf_own (same.owns_eq ▸ own),same.messages]

theorem SameFor.getConversationMessages_eq {limit : Nat} (same : SameFor device a b)
    (foreign : Foreign a device id ↔ Foreign b device id) :
    getConversationMessages a id device limit = getConversationMessages b id device limit := by
  unfold getConversationMessages
  cases found : a.conversations.find id with
  | none =>
    obtain ⟨other,free⟩ := find_none_iff.mp found
    rw [find_none_iff.mpr ⟨same.owns_eq ▸ other,mt foreign.mpr free⟩]
  | some row =>
    by_cases own : row.deviceId = some device
    · have owned := owns_iff.mpr ⟨row,found,own⟩
      obtain ⟨row',found',own'⟩ := owns_iff.mp (same.owns_eq ▸ owned)
      rw [found']
      dsimp only
      rw [if_neg (not_not.mpr own),if_neg (not_not.mpr own'),same.messagesOf_eq owned]
    · obtain ⟨row',found',other'⟩ := foreign.mp ⟨row,found,own⟩
      rw [found']
      dsimp only
      rw [if_pos own,if_pos other']

end Ownership

section Reading

theorem SameFor.conversationsOf_eq (same : SameFor device a b) (source : Value) :
    conversationsOf a source device = conversationsOf b source device := by
  have own (s : Server) : (s.conversations.rows.filter fun row =>
      row.deviceId = some device && row.sourceId.isSome && row.sourceId = source.text?) =
      (ownConversations s device).filter fun row =>
        row.sourceId.isSome && row.sourceId = source.text? := by
    rw [ownConversations,List.filter_filter]
    refine List.filter_congr fun row _ => ?_
    cases decide (row.deviceId = some device) <;> simp
  rw [conversationsOf,conversationsOf,own a,own b,same.conversations]

theorem owns_of_conversationsOf {source : Value} {row : Conversation}
    (member : row ∈ conversationsOf s source device) : owns s device row.id = true := by
  rw [conversationsOf,List.mem_mergeSort,List.mem_filter] at member
  obtain ⟨stored,facts⟩ := member
  simp only [Bool.and_eq_true,decide_eq_true_eq] at facts
  exact owns_iff.mpr ⟨row,find_eq_some.mpr ⟨stored,rfl⟩,facts.1.1⟩

theorem SameFor.getSessionWithData_eq (same : SameFor device a b) (sessionId : Text) :
    getSessionWithData a sessionId device = getSessionWithData b sessionId device := by
  unfold getSessionWithData
  rw [same.shelf]
  cases b.shelf.sessions.find sessionId with
  | none => rfl
  | some session =>
    dsimp only
    split
    · rfl
    · rename_i mine
      have held : session.deviceId = device := not_not.mp mine
      rw [held,same.conversationsOf_eq]
      have messages : (conversationsOf b session.sourceId device).map (fun row =>
          (row,messagesByTime a row.id)) = (conversationsOf b session.sourceId device).map
          fun row => (row,messagesByTime b row.id) := by
        refine List.map_congr_left fun row member => ?_
        rw [← same.conversationsOf_eq] at member
        rw [messagesByTime,messagesByTime,same.messagesOf_eq (owns_of_conversationsOf member)]
      rw [messages]

theorem SameFor.admission_eq {services : Services} {request : AskRequest}
    (same : SameFor device a b) :
    admission services a device request = admission services b device request := by
  rw [admission,admission,same.shelf]

theorem SameFor.gather_eq {services : Services} {request : AskRequest}
    (same : SameFor device a b) :
    gather services a device request = gather services b device request := by
  unfold gather
  rw [same.shelf,same.vault]

theorem SameFor.openConversation_eq {request : AskRequest} {stamp : Stamp}
    (same : SameFor device a b) (foreign : ∀ id, nonEmpty request.conversationId = some id →
      (Foreign a device id ↔ Foreign b device id)) :
    openConversation a device request stamp = openConversation b device request stamp := by
  unfold openConversation
  cases named : nonEmpty request.conversationId with
  | none => rfl
  | some id =>
    dsimp only
    rw [same.getConversationMessages_eq (foreign id named)]

theorem SameFor.prepare_eq {services : Services} {request : AskRequest} {stamp : Stamp}
    (same : SameFor device a b) (foreign : ∀ id, nonEmpty request.conversationId = some id →
      (Foreign a device id ↔ Foreign b device id)) :
    prepare services a device request stamp = prepare services b device request stamp := by
  rw [prepare,prepare,same.admission_eq,same.openConversation_eq foreign,same.gather_eq,
    same.vault]

end Reading

section Storing

variable {rows : List Conversation} {added : List Message}

structure Stored (s s' : Server) (rows : List Conversation) (added : List Message) : Prop where
  shelf : s'.shelf = s.shelf
  vault : s'.vault = s.vault
  conversations : s'.conversations.rows = s.conversations.rows ++ rows
  messages : s'.messages = s.messages ++ added

theorem Stored.trans {s'' : Server} {rows' : List Conversation} {added' : List Message}
    (first : Stored s s' rows added) (second : Stored s' s'' rows' added') :
    Stored s s'' (rows ++ rows') (added ++ added') where
  shelf := second.shelf.trans first.shelf
  vault := second.vault.trans first.vault
  conversations := by rw [second.conversations,first.conversations,List.append_assoc]
  messages := by rw [second.messages,first.messages,List.append_assoc]

theorem Stored.owns (stored : Stored s s' rows added) : owns s' device id =
    (owns s device id || rows.any fun row => row.deviceId = some device && row.id = id) := by
  rw [Reader.owns,stored.conversations,List.any_append,Reader.owns]

theorem Stored.ownMessages (stored : Stored s s' rows added)
    (new : ∀ row ∈ rows, s.conversations.find row.id = none) :
    ownMessages s' device = ownMessages s device ++
      added.filter fun message => Reader.owns s' device message.conversationId := by
  rw [Reader.ownMessages,stored.messages,List.filter_append]
  refine congrArg (· ++ _) (List.filter_congr fun message member => ?_)
  rw [stored.owns]
  have none_ : (rows.any fun row => row.deviceId = some device &&
      row.id = message.conversationId) = false := by
    refine List.any_eq_false.mpr fun row present here => ?_
    simp only [Bool.and_eq_true,decide_eq_true_eq] at here
    have linked := s.linked message member
    rw [← here.2,new row present] at linked
    cases linked
  rw [none_,Bool.or_false]

theorem SameFor.stored (same : SameFor device a b) (first : Stored a a' rows added)
    (second : Stored b b' rows added) (newA : ∀ row ∈ rows, a.conversations.find row.id = none)
    (newB : ∀ row ∈ rows, b.conversations.find row.id = none) : SameFor device a' b' := by
  have conversations : ownConversations a' device = ownConversations b' device := by
    have before := same.conversations
    rw [ownConversations,ownConversations] at before
    rw [ownConversations,ownConversations,first.conversations,second.conversations,
      List.filter_append,List.filter_append,before]
  refine ⟨by rw [first.shelf,second.shelf,same.shelf],by rw [first.vault,second.vault,same.vault],
    conversations,?_⟩
  rw [first.ownMessages newA,second.ownMessages newB,same.messages]
  refine congrArg (_ ++ ·) (List.filter_congr fun message _ => ?_)
  rw [owns_eq_any,owns_eq_any,conversations]

theorem addMessage_ok {message : Message} (new : ∀ other ∈ s.messages, other.id ≠ message.id)
    (own : owns s device message.conversationId = true) :
    ∃ s', addMessage s message = .ok s' ∧ Stored s s' [] [message] := by
  obtain ⟨row,found,-⟩ := owns_iff.mp own
  have unused : (s.messages.any fun other => other.id = message.id) = false :=
    List.any_eq_false.mpr fun other member same => new other member (of_decide_eq_true same)
  rw [addMessage,if_neg (by rw [unused]; decide),dif_pos (by rw [found]; rfl)]
  exact ⟨_,rfl,rfl,rfl,(List.append_nil _).symm,rfl⟩

theorem addMessage_unlinked {message : Message}
    (new : ∀ other ∈ s.messages, other.id ≠ message.id)
    (absent : s.conversations.find message.conversationId = none) :
    addMessage s message = .error (unwrapped "FOREIGN KEY constraint failed") := by
  have unused : (s.messages.any fun other => other.id = message.id) = false :=
    List.any_eq_false.mpr fun other member same => new other member (of_decide_eq_true same)
  rw [addMessage,if_neg (by rw [unused]; decide),dif_neg (by rw [absent]; decide)]

def newConversation (shelf : Shelf) (id device : Text) (request : AskRequest) (stamp : Stamp) :
    Conversation :=
  ⟨id,request.sourceId.filter fun source => (shelf.sources.find source).isSome,some device,stamp.now⟩

def exchange (id : Text) (request : AskRequest) (stamp : Stamp) (answer : Answer) : List Message :=
  [⟨stamp.userMessageId,id,.user,request.query,none,stamp.now⟩,
   ⟨stamp.responseMessageId,id,.assistant,answer.text,answer.model,stamp.now⟩]

variable {request : AskRequest} {stamp : Stamp} {answer : Answer}

theorem storeExchange (user : ∀ message ∈ s.messages, message.id ≠ stamp.userMessageId)
    (response : ∀ message ∈ s.messages, message.id ≠ stamp.responseMessageId)
    (apart : stamp.userMessageId ≠ stamp.responseMessageId) (own : owns s device id = true) :
    ∃ s', storeAnswer s device request stamp id false answer = (.ok (),s') ∧
      Stored s s' [] (exchange id request stamp answer) := by
  obtain ⟨s₁,asked,first⟩ := @addMessage_ok s device
    ⟨stamp.userMessageId,id,.user,request.query,none,stamp.now⟩ user own
  have unused : ∀ message ∈ s₁.messages, message.id ≠ stamp.responseMessageId := by
    intro message member
    rw [first.messages] at member
    rcases List.mem_append.mp member with old | new
    · exact response message old
    · rw [List.mem_singleton.mp new]
      exact apart
  obtain ⟨s₂,answered,second⟩ := @addMessage_ok s₁ device
    ⟨stamp.responseMessageId,id,.assistant,answer.text,answer.model,stamp.now⟩ unused
    (by rw [first.owns,own]; rfl)
  refine ⟨s₂,?_,first.trans second⟩
  rw [storeAnswer,if_neg (by decide)]
  dsimp only
  rw [asked]
  dsimp only
  rw [answered]

theorem createConversation_ok {now : Int} {sourceId : Option Text}
    (absent : s.conversations.find id = none) (known : (s.shelf.devices.find device).isSome = true) :
    ∃ s', createConversation s id device sourceId now = .ok s' ∧ Stored s s'
      [⟨id,sourceId.filter fun source => (s.shelf.sources.find source).isSome,some device,now⟩]
      [] := by
  rw [createConversation,dif_pos absent,if_pos known]
  exact ⟨_,rfl,rfl,rfl,rfl,(List.append_nil _).symm⟩

theorem storeNew (fresh : Fresh s stamp) (absent : s.conversations.find id = none)
    (known : (s.shelf.devices.find device).isSome = true) :
    ∃ s', storeAnswer s device request stamp id true answer = (.ok (),s') ∧
      Stored s s' [newConversation s.shelf id device request stamp]
        (exchange id request stamp answer) := by
  obtain ⟨s₁,created,first⟩ := @createConversation_ok s device id stamp.now request.sourceId
    absent known
  have same : s₁.messages = s.messages := first.messages.trans (List.append_nil _)
  obtain ⟨s₂,stored,second⟩ := @storeExchange s₁ device id request stamp answer
    (same ▸ fresh.user) (same ▸ fresh.response) fresh.apart (by rw [first.owns]; simp)
  refine ⟨s₂,?_,first.trans second⟩
  rw [← stored,storeAnswer,if_pos rfl,created]
  rfl

theorem storeAnswer_unlinked (fresh : Fresh s stamp) (absent : s.conversations.find id = none) :
    storeAnswer s device request stamp id false answer =
      (.error (unwrapped "FOREIGN KEY constraint failed"),s) := by
  rw [storeAnswer,if_neg (by decide)]
  dsimp only
  rw [addMessage_unlinked fresh.user absent]

end Storing

section Asking

variable {services : Services} {request : AskRequest} {stamp : Stamp} {answer : Answer}
variable {isNew : Bool}

/-- The conversation an answer goes to: a new one, one's own, or one that is not there because
the request named it by an empty text. -/
inductive Opened (s : Server) (device id : Text) : Bool → Prop where
  | new (absent : s.conversations.find id = none) : Opened s device id true
  | own (owned : owns s device id = true) : Opened s device id false
  | unlinked (absent : s.conversations.find id = none) : Opened s device id false

theorem opened_of_openConversation {messages : List Message} (fresh : Fresh s stamp)
    (opens : openConversation s device request stamp = .ok (id,isNew,messages)) :
    Opened s device id isNew := by
  unfold openConversation at opens
  cases named : nonEmpty request.conversationId with
  | none =>
    rw [named] at opens
    obtain ⟨rfl,rest⟩ := Prod.mk.inj (Except.ok.inj opens)
    cases isNew with
    | true => exact .new fresh.conversation
    | false => exact .unlinked fresh.conversation
  | some chosen =>
    rw [named] at opens
    dsimp only at opens
    unfold getConversationMessages at opens
    cases found : s.conversations.find chosen with
    | none =>
      rw [found] at opens
      obtain ⟨rfl,rest⟩ := Prod.mk.inj (Except.ok.inj opens)
      obtain ⟨rfl,-⟩ := Prod.mk.inj rest
      exact .new found
    | some row =>
      rw [found] at opens
      dsimp only at opens
      by_cases own : row.deviceId = some device
      · rw [if_neg (not_not.mpr own)] at opens
        obtain ⟨rfl,rest⟩ := Prod.mk.inj (Except.ok.inj opens)
        obtain ⟨rfl,-⟩ := Prod.mk.inj rest
        exact .own (owns_iff.mpr ⟨row,found,own⟩)
      · rw [if_pos own] at opens
        cases opens

theorem opened_of_prepare (fresh : Fresh s stamp)
    (prepared : prepare services s device request stamp = .ok (id,isNew,answer)) :
    Opened s device id isNew ∧ (s.shelf.devices.find device).isSome = true := by
  unfold prepare at prepared
  cases admitted : admission services s device request with
  | error failure =>
    rw [admitted] at prepared
    cases prepared
  | ok passed =>
    rw [admitted] at prepared
    have known : (s.shelf.devices.find device).isSome = true := by
      unfold admission at admitted
      split at admitted
      · cases admitted
      · rename_i refused
        exact Option.isSome_iff_ne_none.mpr fun absent => refused (.inr absent)
    refine ⟨?_,known⟩
    cases opens : openConversation s device request stamp with
    | error failure =>
      rw [opens] at prepared
      cases prepared
    | ok opened =>
      obtain ⟨chosen,new,messages⟩ := opened
      have kept := opened_of_openConversation fresh opens
      rw [opens] at prepared
      simp only [bind,Except.bind] at prepared
      split at prepared
      · cases prepared
      · split at prepared
        · cases prepared
        · obtain ⟨rfl,rest⟩ := Prod.mk.inj (Except.ok.inj prepared)
          obtain ⟨rfl,-⟩ := Prod.mk.inj rest
          exact kept

/-- States that look the same store an answer with the same outcome, and look the same after. -/
theorem SameFor.storeAnswer (same : SameFor device a b) (freshA : Fresh a stamp)
    (freshB : Fresh b stamp) (openedA : Opened a device id isNew)
    (openedB : Opened b device id isNew) (known : (a.shelf.devices.find device).isSome = true) :
    (Reader.storeAnswer a device request stamp id isNew answer).1 =
        (Reader.storeAnswer b device request stamp id isNew answer).1 ∧
      SameFor device (Reader.storeAnswer a device request stamp id isNew answer).2
        (Reader.storeAnswer b device request stamp id isNew answer).2 := by
  cases openedA with
  | new absentA =>
    cases openedB with
    | new absentB =>
      obtain ⟨a',ranA,storedA⟩ := @storeNew a device id request stamp answer freshA absentA known
      obtain ⟨b',ranB,storedB⟩ := @storeNew b device id request stamp answer freshB absentB
        (same.shelf ▸ known)
      rw [ranA,ranB]
      rw [same.shelf] at storedA
      refine ⟨rfl,same.stored storedA storedB (fun row member => ?_) fun row member => ?_⟩
      · rw [List.mem_singleton.mp member]
        exact absentA
      · rw [List.mem_singleton.mp member]
        exact absentB
  | own owned =>
    obtain ⟨a',ranA,storedA⟩ := @storeExchange a device id request stamp answer freshA.user
      freshA.response freshA.apart owned
    obtain ⟨b',ranB,storedB⟩ := @storeExchange b device id request stamp answer freshB.user
      freshB.response freshB.apart (same.owns_eq ▸ owned)
    rw [ranA,ranB]
    exact ⟨rfl,same.stored storedA storedB (fun row member => by cases member)
      fun row member => by cases member⟩
  | unlinked absent =>
    have absentB : b.conversations.find id = none := by
      cases openedB with
      | unlinked absentB => exact absentB
      | own owned =>
        have free := (@find_none_iff a device id).mp absent
        rw [same.owns_eq,owned] at free
        cases free.1
    rw [storeAnswer_unlinked freshA absent,storeAnswer_unlinked freshB absentB]
    exact ⟨rfl,same⟩

theorem grows_refl : Grows device s s :=
  ⟨rfl,⟨[],(List.append_nil _).symm,fun row member => by cases member⟩,
    ⟨[],(List.append_nil _).symm,fun message member => by cases member⟩⟩

theorem exchange_owned {rows : List Conversation}
    (stored : Stored s s' rows (exchange id request stamp answer)) (own : owns s' device id = true)
    (rowsOwn : ∀ row ∈ rows, row.deviceId = some device) : Grows device s s' := by
  refine ⟨stored.shelf,⟨rows,stored.conversations,rowsOwn⟩,⟨_,stored.messages,?_⟩⟩
  intro message member
  rcases List.mem_cons.mp member with rfl | later
  · exact own
  · rw [List.mem_singleton.mp later]
    exact own

theorem grows_storeAnswer (fresh : Fresh s stamp) (opened : Opened s device id isNew)
    (known : (s.shelf.devices.find device).isSome = true) :
    Grows device s (storeAnswer s device request stamp id isNew answer).2 := by
  cases opened with
  | new absent =>
    obtain ⟨s',ran,stored⟩ := @storeNew s device id request stamp answer fresh absent known
    rw [ran]
    refine exchange_owned stored ?_ fun row member => ?_
    · rw [stored.owns]
      simp [newConversation]
    · rw [List.mem_singleton.mp member]
      rfl
  | own owned =>
    obtain ⟨s',ran,stored⟩ := @storeExchange s device id request stamp answer fresh.user
      fresh.response fresh.apart owned
    rw [ran]
    refine exchange_owned stored ?_ fun row member => by cases member
    rw [stored.owns,owned]
    rfl
  | unlinked absent =>
    rw [storeAnswer_unlinked fresh absent]
    exact grows_refl

theorem SameFor.ask (same : SameFor device a b) (freshA : Fresh a stamp) (freshB : Fresh b stamp)
    (foreign : ∀ id, nonEmpty request.conversationId = some id →
      (Foreign a device id ↔ Foreign b device id)) :
    (Reader.ask services a device request stamp).1 =
        (Reader.ask services b device request stamp).1 ∧
      SameFor device (Reader.ask services a device request stamp).2
        (Reader.ask services b device request stamp).2 := by
  have prepared := @SameFor.prepare_eq _ _ _ services request stamp same foreign
  unfold Reader.ask
  cases readyB : Reader.prepare services b device request stamp with
  | error failure =>
    rw [prepared,readyB]
    exact ⟨rfl,same⟩
  | ok ready =>
    obtain ⟨id,isNew,answer⟩ := ready
    rw [readyB] at prepared
    rw [prepared]
    obtain ⟨openedA,known⟩ := opened_of_prepare freshA prepared
    obtain ⟨openedB,-⟩ := opened_of_prepare freshB readyB
    obtain ⟨results,after⟩ := @SameFor.storeAnswer _ _ _ _ request stamp answer _ same freshA freshB
      openedA openedB known
    dsimp only
    revert results after
    rcases Reader.storeAnswer a device request stamp id isNew answer with ⟨failure | done,a'⟩ <;>
      rcases Reader.storeAnswer b device request stamp id isNew answer with ⟨failure' | done',b'⟩
    · exact fun results after => ⟨by cases results; rfl,after⟩
    · exact fun results => by cases results
    · exact fun results => by cases results
    · exact fun _ after => ⟨rfl,after⟩

theorem grows_ask (fresh : Fresh s stamp) :
    Grows device s (ask services s device request stamp).2 := by
  unfold ask
  cases prepared : prepare services s device request stamp with
  | error failure => exact grows_refl
  | ok ready =>
    obtain ⟨id,isNew,answer⟩ := ready
    obtain ⟨opened,known⟩ := opened_of_prepare fresh prepared
    have grows := @grows_storeAnswer _ _ _ request stamp answer _ fresh opened known
    dsimp only
    revert grows
    rcases storeAnswer s device request stamp id isNew answer with ⟨failure | done,s'⟩
    · exact fun grows => grows
    · exact fun grows => grows

theorem SameFor.importSession {formats : Formats} {importer : Option Vault.VaultService}
    (same : SameFor device a b) (sessionId : Text) :
    (Reader.importSession formats importer a sessionId device).1 =
        (Reader.importSession formats importer b sessionId device).1 ∧
      SameFor device (Reader.importSession formats importer a sessionId device).2
        (Reader.importSession formats importer b sessionId device).2 := by
  unfold Reader.importSession
  cases importer with
  | none => exact ⟨rfl,same⟩
  | some vault =>
    dsimp only
    rw [same.getSessionWithData_eq]
    cases getSessionWithData b sessionId device with
    | none => exact ⟨rfl,same⟩
    | some data =>
      dsimp only
      rw [same.vault]
      exact ⟨rfl,same.shelf,rfl,same.conversations,same.messages⟩

theorem grows_importSession {formats : Formats} {importer : Option Vault.VaultService}
    (sessionId : Text) : Grows device s (importSession formats importer s sessionId device).2 := by
  unfold importSession
  cases importer with
  | none => exact grows_refl
  | some vault =>
    dsimp only
    cases getSessionWithData s sessionId device with
    | none => exact grows_refl
    | some data => exact ⟨rfl,grows_refl.conversations,grows_refl.messages⟩

theorem respond_ask (config : Configuration) :
    respond config device s (.ask request stamp) =
      (.ask (ask config.services s device request stamp).1,
        (ask config.services s device request stamp).2) := rfl

theorem respond_importSession (config : Configuration) (sessionId : Text) :
    respond config device s (.importSession sessionId) =
      (.imported (importSession config.formats config.importer s sessionId device).1,
        (importSession config.formats config.importer s sessionId device).2) := rfl

/-- Two states that differ in what others said: a request that names no conversation of somebody
else in one of them only is answered the same and leaves the states alike; and what it adds, it
adds to conversations of its device. -/
theorem respond_noninterference (config : Configuration) (request : ConversationRequest)
    (same : SameFor device a b) (discreet : Discreet device a b request) :
    (respond config device a request).1 = (respond config device b request).1 ∧
      SameFor device (respond config device a request).2 (respond config device b request).2 ∧
      Grows device a (respond config device a request).2 := by
  cases request with
  | history id limit =>
    exact ⟨congrArg Reply.history (same.getConversationMessages_eq discreet),same,grows_refl⟩
  | ask request stamp =>
    obtain ⟨freshA,freshB,foreign⟩ := discreet
    obtain ⟨results,after⟩ := @SameFor.ask _ _ _ config.services request stamp same freshA freshB
      foreign
    rw [respond_ask,respond_ask,results]
    exact ⟨rfl,after,grows_ask freshA⟩
  | importSession sessionId =>
    obtain ⟨results,after⟩ := @SameFor.importSession _ _ _ config.formats config.importer same
      sessionId
    rw [respond_importSession,respond_importSession,results]
    exact ⟨rfl,after,grows_importSession sessionId⟩

end Asking

section TwoDevices

def echoing : Configuration where
  services := {aiWorkflow := some fun _ prompt _ => some ⟨prompt,"echo".toList,[]⟩
               knowledgeMatches := fun _ _ _ _ => some []}
  formats := ⟨fun value => value.text?.getD [],fun _ => [],fun _ => [],fun _ => .ok ([],[])⟩
  importer := none

def quiet : Server where
  shelf := {devices := [("mac".toList,⟨"Mac".toList,"mac".toList⟩)]}

def padTalks : Server where
  shelf := quiet.shelf
  conversations := {rows := [⟨"c1".toList,none,some "pad".toList,0⟩]}

def ids : Stamp := ⟨"c2".toList,"m1".toList,"m2".toList,0⟩

theorem sameFor_padTalks : SameFor "mac".toList padTalks quiet :=
  ⟨rfl,rfl,by decide,rfl⟩

/-- A question in a new conversation is answered the same. -/
theorem newQuestion_noninterference :
    let request : ConversationRequest := .ask {query := "hello".toList} ids
    (respond echoing "mac".toList padTalks request).1 =
        (respond echoing "mac".toList quiet request).1 ∧
      SameFor "mac".toList (respond echoing "mac".toList padTalks request).2
        (respond echoing "mac".toList quiet request).2 ∧
      Grows "mac".toList padTalks (respond echoing "mac".toList padTalks request).2 := by
  refine respond_noninterference echoing _ sameFor_padTalks ⟨⟨by decide,?_,?_,by decide⟩,
    ⟨by decide,?_,?_,by decide⟩,fun id named => by cases named⟩
  · exact fun message member => by cases member
  · exact fun message member => by cases member
  · exact fun message member => by cases member
  · exact fun message member => by cases member

/-- A question under the other's id is refused in one state and answered in the other. -/
theorem takenName_differs :
    SameFor "mac".toList padTalks quiet ∧
      (respond echoing "mac".toList padTalks
        (.ask {query := "hello".toList,conversationId := some "c1".toList} ids)).1 ≠
      (respond echoing "mac".toList quiet
        (.ask {query := "hello".toList,conversationId := some "c1".toList} ids)).1 := by
  refine ⟨sameFor_padTalks,fun same => ?_⟩
  have outcomes := congrArg Except.isOk (Reply.ask.inj same)
  exact absurd outcomes (by decide +kernel)

end TwoDevices

end LocalBook.Reader
