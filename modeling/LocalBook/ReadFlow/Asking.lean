import LocalBook.ReadFlow.Outbox

/-! The conversations about one highlight. A question waits for its answer while the user may
ask further questions or change the scope, which changes the conversation. -/
namespace LocalBook.ReadFlow.Popover

inductive AIScope where
  | currentContent
  | myKnowledge
  | web
deriving DecidableEq

def AIScope.rawValue : AIScope → Text
  | .currentContent => "current_content".toList
  | .myKnowledge => "my_knowledge".toList
  | .web => "web".toList

theorem AIScope.rawValue_injective : Function.Injective AIScope.rawValue := by
  intro a b equal
  cases a <;> cases b <;> first | rfl | exact absurd equal (by decide)

inductive AIProviderKind where
  | localbook
  | cloud
  | offline
deriving DecidableEq

def AIProviderKind.rawValue : AIProviderKind → Text
  | .localbook => "localbook".toList
  | .cloud => "cloud".toList
  | .offline => "offline".toList

structure Citation where
  sourceID : UUID
  title : Option Text
  snippet : Option Text
  url : Option Text
deriving DecidableEq

inductive MessageRole where
  | user
  | assistant
  | system
deriving DecidableEq

structure ConversationMessage where
  role : MessageRole
  content : Text
  citations : Option (List Citation) := none
  provider : Option Text := none
  isDegraded : Option Bool := none
deriving DecidableEq

structure FallbackRecord where
  source : AIProviderKind
  target : AIProviderKind
  reason : Text
deriving DecidableEq

structure AIResponse where
  text : Text
  citations : List Citation := []
  provider : AIProviderKind
  isDegraded : Bool := false
deriving DecidableEq

structure AIOutcome where
  response : AIResponse
  fallbacks : List FallbackRecord := []
deriving DecidableEq

/-- `attributionDisplay(…).explanation` of a response. -/
def AIResponse.explanation (response : AIResponse) : Text :=
  match response.provider with
  | .offline => if response.isDegraded then "已回落离线".toList else "未配置 AI 服务".toList
  | kind => "由 ".toList ++ kind.rawValue ++ " 生成".toList

def AIOutcome.notice (outcome : AIOutcome) : Option Text :=
  if outcome.fallbacks = [] ∧ outcome.response.isDegraded = false then none
  else
    let reason := (outcome.fallbacks.getLast?.map FallbackRecord.reason).getD []
    let notice := '[' :: outcome.response.explanation ++ [']']
    some (if reason = [] then notice else notice ++ " 原因：".toList ++ reason)

structure Conversation where
  id : Nat
  scope : Text
deriving DecidableEq

/-- A row of `conversation_messages`, with what it belongs to: the number of the question that
it is or answers, and the scope that the question was asked under. -/
structure ConversationMessageRecord where
  conversationID : Nat
  message : ConversationMessage
  question : Nat
  scope : AIScope
deriving DecidableEq

structure AIRequest where
  query : Text
  scope : AIScope
  conversationID : Option Nat
  question : Nat
deriving DecidableEq

/-- Which calls of the storage fail in one step, each with the description of its error. -/
structure Faults where
  getConversationsForHighlight : Option Text := none
  conversationMessages : Option Text := none
  createConversation : Option Text := none
  addMessage : Option Text := none

/-- The view model and the conversations of its highlight, the last touched first. -/
structure AIPopoverViewModel where
  conversations : List Conversation := []
  records : List ConversationMessageRecord := []
  messages : List ConversationMessage := []
  selectedScope : AIScope := .currentContent
  conversationID : Option Nat := none
  isLoading : Bool := false
  error : Option Text := none
  lastSendFailed : Bool := false
  lastOutcome : Option AIOutcome := none
  waiting : List AIRequest := []
  questions : Nat := 0
deriving DecidableEq

namespace AIPopoverViewModel

def existing (s : AIPopoverViewModel) (scope : AIScope) : Option Conversation :=
  s.conversations.find? fun conversation => conversation.scope = scope.rawValue

def conversationMessages (s : AIPopoverViewModel) (conversationID : Nat) :
    List ConversationMessage :=
  (s.records.filter fun record => record.conversationID = conversationID).map
    ConversationMessageRecord.message

/-- `UUID()`: an id that no conversation has. -/
def freshID (s : AIPopoverViewModel) : Nat :=
  s.conversations.foldr (fun conversation bound => max (conversation.id + 1) bound) 0

def createConversation (s : AIPopoverViewModel) (scope : AIScope) : AIPopoverViewModel :=
  {s with conversations := ⟨s.freshID,scope.rawValue⟩ :: s.conversations}

def addMessage (s : AIPopoverViewModel) (conversationID : Nat) (message : ConversationMessage)
    (question : Nat) (scope : AIScope) : AIPopoverViewModel :=
  {s with records := s.records ++ [⟨conversationID,message,question,scope⟩]}

/-- Selects the conversation of the current scope, or creates one. `failed` is the text of an
error and `blank` what becomes of the list when the conversation is new. -/
def select (s : AIPopoverViewModel) (faults : Faults) (failed : Text)
    (blank : List ConversationMessage → List ConversationMessage) : AIPopoverViewModel :=
  match faults.getConversationsForHighlight with
  | some description => {s with error := some (failed ++ description)}
  | none =>
    match s.existing s.selectedScope with
    | some conversation =>
      match faults.conversationMessages with
      | some description =>
        {s with conversationID := some conversation.id,error := some (failed ++ description)}
      | none =>
        {s with
          conversationID := some conversation.id
          messages := s.conversationMessages conversation.id}
    | none =>
      match faults.createConversation with
      | some description => {s with error := some (failed ++ description)}
      | none =>
        {s.createConversation s.selectedScope with
          conversationID := some s.freshID
          messages := blank s.messages}

def loadConversation (s : AIPopoverViewModel) (faults : Faults) : AIPopoverViewModel :=
  s.select faults "无法读取对话历史：".toList id

def changeScope (s : AIPopoverViewModel) (newScope : AIScope) (faults : Faults) :
    AIPopoverViewModel :=
  if newScope = s.selectedScope then s
  else
    ({s with selectedScope := newScope} : AIPopoverViewModel).select faults
      "无法切换对话范围：".toList fun _ => []

/-- A send up to the point where it waits for the coordinator. That its question could not be
stored is only printed. -/
def sendQuery (s : AIPopoverViewModel) (query : Text) (faults : Faults) : AIPopoverViewModel :=
  let s := {s with lastSendFailed := false}
  if query = [] then s
  else
    let userMessage : ConversationMessage := {role := .user,content := query}
    let s := {s with messages := s.messages ++ [userMessage]}
    let s := match s.conversationID,faults.addMessage with
      | some convID,none => s.addMessage convID userMessage s.questions s.selectedScope
      | _,_ => s
    {s with
      isLoading := true
      error := none
      waiting := s.waiting ++ [⟨query,s.selectedScope,s.conversationID,s.questions⟩]
      questions := s.questions + 1}

def resumed (s : AIPopoverViewModel) (index : Nat) : AIPopoverViewModel :=
  {s with waiting := s.waiting.eraseIdx index}

/-- The `catch` of `sendQuery`. -/
def sendFailed (s : AIPopoverViewModel) (description : Text) : AIPopoverViewModel :=
  {s with
    lastSendFailed := true
    error := some description
    messages := s.messages ++ [{role := .system,content := "抱歉，发生了错误：".toList ++ description}]
    isLoading := false}

def append (s : AIPopoverViewModel) (message : ConversationMessage) : AIPopoverViewModel :=
  {s with messages := s.messages ++ [message]}

def assistantMessage (response : AIResponse) : ConversationMessage :=
  {role := .assistant,content := response.text,citations := some response.citations,
    provider := some response.provider.rawValue,isDegraded := some response.isDegraded}

/-- The rest of a send, from the outcome that the coordinator returns for its request. -/
def answered (s : AIPopoverViewModel) (request : AIRequest) (outcome : AIOutcome)
    (faults : Faults) : AIPopoverViewModel :=
  let message := assistantMessage outcome.response
  let s := {s with lastOutcome := some outcome,messages := s.messages ++ [message]}
  match s.conversationID,faults.addMessage with
  | some _,some description => s.sendFailed description
  | convID,_ =>
    let s := match convID with
      | some convID => s.addMessage convID message request.question request.scope
      | none => s
    let s := match outcome.notice with
      | some notice => s.append {role := .system,content := notice}
      | none => s
    {s with isLoading := false}

end AIPopoverViewModel

/-- What happens on the main actor between two suspensions. An answer, or the error instead of
it, comes for any of the questions that wait. -/
inductive Event where
  | sendQuery (query : Text) (faults : Faults)
  | answer (index : Nat) (outcome : AIOutcome) (faults : Faults)
  | refused (index : Nat) (description : Text)
  | changeScope (newScope : AIScope) (faults : Faults)

def step (s : AIPopoverViewModel) : Event → AIPopoverViewModel
  | .sendQuery query faults => s.sendQuery query faults
  | .answer index outcome faults =>
    match s.waiting[index]? with
    | some request => (s.resumed index).answered request outcome faults
    | none => s
  | .refused index description =>
    match s.waiting[index]? with
    | some _ => (s.resumed index).sendFailed description
    | none => s
  | .changeScope newScope faults => s.changeScope newScope faults

/-- The popover opened on what is stored, after a sequence of events. -/
def asked (stored : AIPopoverViewModel) (opening : Faults) (events : List Event) :
    AIPopoverViewModel :=
  events.foldl step (stored.loadConversation opening)

/-- Only the storage has a past. -/
def IsClosed (s : AIPopoverViewModel) : Prop :=
  s.messages = [] ∧ s.waiting = [] ∧ s.selectedScope = .currentContent

def dialogue (messages : List ConversationMessage) : List ConversationMessage :=
  messages.filter fun message => message.role ≠ .system

namespace AIPopoverViewModel

def content (s : AIPopoverViewModel) (scope : AIScope) : List ConversationMessage :=
  match s.existing scope with
  | some conversation => s.conversationMessages conversation.id
  | none => []

end AIPopoverViewModel

/-- What is stored is in order: an answer is in one conversation with its question, and a
conversation has questions and answers of its own scope only. -/
structure Filed (s : AIPopoverViewModel) : Prop where
  distinct : (s.conversations.map Conversation.id).Nodup
  owned : ∀ record ∈ s.records, ∃ conversation ∈ s.conversations,
    conversation.id = record.conversationID ∧ conversation.scope = record.scope.rawValue
  asked : ∀ answer ∈ s.records, answer.message.role = .assistant →
    ∃ question ∈ s.records, question.message.role = .user ∧ question.question = answer.question
  together : ∀ a ∈ s.records, ∀ b ∈ s.records, a.question = b.question →
    a.conversationID = b.conversationID
  numbered : ∀ record ∈ s.records, record.question < s.questions

/-- Answers stay in their conversation, and the list shows the conversation of the scope. -/
structure InPlace (s : AIPopoverViewModel) : Prop where
  filed : Filed s
  displayed : dialogue s.messages = dialogue (s.content s.selectedScope)

def selects (s : AIPopoverViewModel) (scope : AIScope) (faults : Faults) : Bool :=
  faults.getConversationsForHighlight.isNone &&
    if (s.existing scope).isSome then faults.conversationMessages.isNone
    else faults.createConversation.isNone

def timely (s : AIPopoverViewModel) : Event → Bool
  | .sendQuery query faults => query = [] || faults.addMessage.isNone
  | .answer index _ faults =>
    match s.waiting[index]? with
    | some request => decide (request.scope = s.selectedScope) && faults.addMessage.isNone
    | none => true
  | .refused _ _ => true
  | .changeScope newScope faults => decide (newScope = s.selectedScope) || selects s newScope faults

def allTimely (s : AIPopoverViewModel) : List Event → Bool
  | [] => true
  | event :: events => timely s event && allTimely (step s event) events

namespace AIPopoverViewModel

variable {s : AIPopoverViewModel} {scope : AIScope} {conversation : Conversation}

theorem existing_mem (here : s.existing scope = some conversation) :
    conversation ∈ s.conversations ∧ conversation.scope = scope.rawValue :=
  ⟨List.mem_of_find?_eq_some here,by simpa using List.find?_some here⟩

theorem lt_freshID (mem : conversation ∈ s.conversations) : conversation.id < s.freshID := by
  unfold freshID
  revert mem
  generalize s.conversations = conversations
  intro mem
  induction conversations with
  | nil => cases mem
  | cons first rest ih =>
    simp only [List.foldr_cons]
    rcases List.mem_cons.mp mem with rfl | later
    · omega
    · have bound := ih later
      omega

theorem existing_createConversation (created : AIScope) :
    (s.createConversation created).existing scope =
      if created = scope then some ⟨s.freshID,created.rawValue⟩ else s.existing scope := by
  simp only [existing,createConversation,List.find?_cons,AIScope.rawValue_injective.eq_iff]
  split <;> simp_all

theorem conversationMessages_addMessage (conversationID : Nat) (message : ConversationMessage)
    (question : Nat) :
    (s.addMessage conversationID message question scope).conversationMessages conversationID =
      s.conversationMessages conversationID ++ [message] := by
  simp [conversationMessages,addMessage]

theorem content_of_existing (here : s.existing scope = some conversation) :
    s.content scope = s.conversationMessages conversation.id := by
  simp [content,here]

theorem content_addMessage (here : s.existing scope = some conversation)
    (message : ConversationMessage) (question : Nat) (asked : AIScope) :
    (s.addMessage conversation.id message question asked).content scope =
      s.content scope ++ [message] := by
  have still : (s.addMessage conversation.id message question asked).existing scope =
      some conversation := here
  rw [content_of_existing still,content_of_existing here,conversationMessages_addMessage]

end AIPopoverViewModel

@[simp] theorem dialogue_append (a b : List ConversationMessage) :
    dialogue (a ++ b) = dialogue a ++ dialogue b := List.filter_append ..

theorem dialogue_notice (messages : List ConversationMessage) (text : Text) :
    dialogue (messages ++ [{role := .system,content := text}]) = dialogue messages := by
  simp [dialogue]

namespace Filed

variable {s t : AIPopoverViewModel} {conversation : Conversation} {scope : AIScope}

theorem congr (filed : Filed s) (conversations : t.conversations = s.conversations)
    (records : t.records = s.records) (questions : s.questions ≤ t.questions) : Filed t where
  distinct := by simpa [conversations] using filed.distinct
  owned := by simpa [conversations,records] using filed.owned
  asked := by simpa [records] using filed.asked
  together := by simpa [records] using filed.together
  numbered record mem := by
    have bound := filed.numbered record (by simpa [records] using mem)
    omega

theorem createConversation (filed : Filed s) (scope : AIScope) :
    Filed (s.createConversation scope) where
  distinct := by
    simp only [AIPopoverViewModel.createConversation,List.map_cons,List.nodup_cons]
    constructor
    · intro mem
      obtain ⟨conversation,known,same⟩ := List.mem_map.mp mem
      have bound := AIPopoverViewModel.lt_freshID known
      omega
    · exact filed.distinct
  owned record mem := by
    obtain ⟨conversation,known,fits⟩ := filed.owned record mem
    exact ⟨conversation,List.mem_cons_of_mem _ known,fits⟩
  asked := filed.asked
  together := filed.together
  numbered := filed.numbered

/-- A message goes into the conversation of its scope: a question with a number of its own, or an
answer into the conversation that has the question. -/
theorem addMessage (filed : Filed s) (here : s.existing scope = some conversation)
    (message : ConversationMessage) {question : Nat} (number : question < s.questions)
    (known : message.role = .assistant →
      ∃ record ∈ s.records, record.message.role = .user ∧ record.question = question)
    (there : ∀ record ∈ s.records, record.question = question →
      record.conversationID = conversation.id) :
    Filed (s.addMessage conversation.id message question scope) := by
  have records : (s.addMessage conversation.id message question scope).records =
      s.records ++ [⟨conversation.id,message,question,scope⟩] := rfl
  constructor
  · exact filed.distinct
  · intro record mem
    rw [records,List.mem_append,List.mem_singleton] at mem
    rcases mem with old | rfl
    · exact filed.owned record old
    · have found := AIPopoverViewModel.existing_mem here
      exact ⟨conversation,found.1,rfl,found.2⟩
  · intro answer mem role
    rw [records,List.mem_append,List.mem_singleton] at mem
    have earlier : ∃ record ∈ s.records,
        record.message.role = .user ∧ record.question = answer.question := by
      rcases mem with old | rfl
      · exact filed.asked answer old role
      · exact known role
    obtain ⟨record,old,fits⟩ := earlier
    exact ⟨record,List.mem_append_left _ old,fits⟩
  · intro a memA b memB same
    rw [records,List.mem_append,List.mem_singleton] at memA memB
    rcases memA with oldA | rfl <;> rcases memB with oldB | rfl
    · exact filed.together a oldA b oldB same
    · exact there a oldA same
    · exact (there b oldB same.symm).symm
    · rfl
  · intro record mem
    rw [records,List.mem_append,List.mem_singleton] at mem
    rcases mem with old | rfl
    · exact filed.numbered record old
    · exact number

end Filed

def Stored (s : AIPopoverViewModel) (request : AIRequest) : Prop :=
  ∃ record ∈ s.records, record.message.role = .user ∧ record.question = request.question ∧
    ∃ conversation, s.existing request.scope = some conversation ∧
      conversation.id = record.conversationID

/-- The conversation of the current scope is the current one, and every question that waits is
stored. -/
structure Kept (s : AIPopoverViewModel) : Prop extends InPlace s where
  current : ∃ conversation, s.existing s.selectedScope = some conversation ∧
    s.conversationID = some conversation.id
  stored : ∀ request ∈ s.waiting, Stored s request

section steps

variable {s t : AIPopoverViewModel}

theorem Stored.mono {request : AIRequest} (stored : Stored s request)
    (records : ∀ record ∈ s.records, record ∈ t.records)
    (existing : ∀ scope conversation, s.existing scope = some conversation →
      t.existing scope = some conversation) : Stored t request := by
  obtain ⟨record,mem,role,number,conversation,here,same⟩ := stored
  exact ⟨record,records record mem,role,number,conversation,existing _ _ here,same⟩

theorem kept_select {faults : Faults} {failed : Text}
    {blank : List ConversationMessage → List ConversationMessage} (filed : Filed s)
    (stored : ∀ request ∈ s.waiting, Stored s request)
    (works : selects s s.selectedScope faults = true) (empty : blank s.messages = []) :
    Kept (s.select faults failed blank) := by
  simp only [selects,Bool.and_eq_true,Option.isNone_iff_eq_none] at works
  unfold AIPopoverViewModel.select
  simp only [works.1]
  split
  · rename_i conversation here
    simp only [here,Option.isSome_some,if_true,Option.isNone_iff_eq_none] at works
    simp only [works.2]
    have content := AIPopoverViewModel.content_of_existing here
    exact {
      filed := filed.congr rfl rfl le_rfl
      displayed := congrArg dialogue content.symm
      current := ⟨conversation,here,rfl⟩
      stored := stored}
  · rename_i missing
    simp only [missing,Option.isSome_none,Bool.false_eq_true,if_false,
      Option.isNone_iff_eq_none] at works
    simp only [works.2]
    have here : (s.createConversation s.selectedScope).existing s.selectedScope =
        some ⟨s.freshID,s.selectedScope.rawValue⟩ := by
      simp [AIPopoverViewModel.existing_createConversation]
    have unused : s.conversationMessages s.freshID = [] := by
      simp only [AIPopoverViewModel.conversationMessages,List.map_eq_nil_iff,
        List.filter_eq_nil_iff,decide_eq_true_eq]
      intro record mem same
      obtain ⟨conversation,known,owner,-⟩ := filed.owned record mem
      have bound := AIPopoverViewModel.lt_freshID known
      omega
    exact {
      filed := (filed.createConversation s.selectedScope).congr rfl rfl le_rfl
      displayed := by
        have content := (AIPopoverViewModel.content_of_existing here).trans unused
        exact congrArg dialogue (empty.trans content.symm)
      current := ⟨_,here,rfl⟩
      stored := fun request mem => (stored request mem).mono (fun _ mem => mem)
        fun scope conversation known => by
          change (s.createConversation s.selectedScope).existing scope = some conversation
          rw [AIPopoverViewModel.existing_createConversation,if_neg]
          · exact known
          · rintro rfl
            rw [missing] at known
            cases known}

theorem kept_loadConversation {faults : Faults} (filed : Filed s) (closed : IsClosed s)
    (works : selects s .currentContent faults = true) : Kept (s.loadConversation faults) := by
  obtain ⟨messages,waiting,scope⟩ := closed
  apply kept_select filed
  · simp [waiting]
  · simpa [scope] using works
  · exact messages

theorem kept_changeScope {newScope : AIScope} {faults : Faults} (kept : Kept s)
    (works : timely s (.changeScope newScope faults) = true) :
    Kept (s.changeScope newScope faults) := by
  unfold AIPopoverViewModel.changeScope
  split
  · exact kept
  · rename_i other
    simp only [timely,other,decide_false,Bool.false_or] at works
    exact kept_select (kept.filed.congr rfl rfl le_rfl) kept.stored works rfl

theorem kept_sendQuery {query : Text} {faults : Faults} (kept : Kept s)
    (works : timely s (.sendQuery query faults) = true) : Kept (s.sendQuery query faults) := by
  unfold AIPopoverViewModel.sendQuery
  by_cases blank : query = []
  · simp only [blank,if_true]
    exact {
      filed := kept.filed.congr rfl rfl le_rfl
      displayed := kept.displayed
      current := kept.current
      stored := kept.stored}
  · obtain ⟨conversation,here,current⟩ := kept.current
    simp only [timely,blank,decide_false,Bool.false_or,Option.isNone_iff_eq_none] at works
    simp only [blank,if_false,current,works]
    -- The number of the question is its own.
    have asking : Filed {s with questions := s.questions + 1} :=
      kept.filed.congr rfl rfl (Nat.le_succ _)
    have filed := asking.addMessage here {role := .user,content := query}
      (Nat.lt_succ_self s.questions) nofun fun record mem same => by
        have bound := kept.filed.numbered record mem
        omega
    exact {
      filed := filed.congr rfl rfl le_rfl
      displayed := by
        have content := AIPopoverViewModel.content_addMessage here
          {role := .user,content := query} s.questions s.selectedScope
        have shown : dialogue (s.messages ++ [{role := .user,content := query}]) =
            dialogue (s.content s.selectedScope ++ [{role := .user,content := query}]) := by
          simp [kept.displayed]
        exact shown.trans (congrArg dialogue content.symm)
      current := ⟨conversation,here,rfl⟩
      stored := by
        intro request mem
        rcases List.mem_append.mp mem with old | new
        · exact (kept.stored request old).mono (fun _ mem => List.mem_append_left _ mem)
            fun _ _ known => known
        · rw [List.mem_singleton.mp new]
          exact ⟨_,List.mem_append_right _ (List.mem_singleton_self _),rfl,rfl,conversation,here,
            rfl⟩}

theorem kept_resumed (kept : Kept s) (index : Nat) : Kept (s.resumed index) where
  filed := kept.filed.congr rfl rfl le_rfl
  displayed := kept.displayed
  current := kept.current
  stored := fun request mem => kept.stored request (List.mem_of_mem_eraseIdx mem)

theorem kept_sendFailed (kept : Kept s) (description : Text) : Kept (s.sendFailed description) where
  filed := kept.filed.congr rfl rfl le_rfl
  displayed := (dialogue_notice _ _).trans kept.displayed
  current := kept.current
  stored := kept.stored

theorem kept_answered {request : AIRequest} {outcome : AIOutcome} {faults : Faults} (kept : Kept s)
    (asked : Stored s request) (still : request.scope = s.selectedScope)
    (works : faults.addMessage = none) : Kept (s.answered request outcome faults) := by
  obtain ⟨conversation,here,current⟩ := kept.current
  obtain ⟨record,mem,role,number,owner,found,same⟩ := asked
  have one : owner = conversation := by
    rw [still,here] at found
    exact (Option.some.inj found).symm
  subst one
  have filed := kept.filed.addMessage found (AIPopoverViewModel.assistantMessage outcome.response)
    (number ▸ kept.filed.numbered record mem)
    (fun _ => ⟨record,mem,role,number⟩)
    fun other known equal => by
      rw [same]
      exact kept.filed.together other known record mem (equal.trans number.symm)
  have content := AIPopoverViewModel.content_addMessage here
    (AIPopoverViewModel.assistantMessage outcome.response) request.question request.scope
  have shown : dialogue (s.messages ++ [AIPopoverViewModel.assistantMessage outcome.response]) =
      dialogue (s.content s.selectedScope ++
        [AIPopoverViewModel.assistantMessage outcome.response]) := by
    simp [kept.displayed]
  unfold AIPopoverViewModel.answered
  simp only [current,works]
  exact {
    filed := by split <;> exact filed.congr rfl rfl le_rfl
    displayed := by
      split
      · exact (dialogue_notice _ _).trans (shown.trans (congrArg dialogue content.symm))
      · exact shown.trans (congrArg dialogue content.symm)
    current := by split <;> exact ⟨owner,here,rfl⟩
    stored := fun other waits => by
      have old : other ∈ s.waiting := by
        split at waits <;> exact waits
      apply (kept.stored other old).mono
      · intro record mem
        split <;> exact List.mem_append_left _ mem
      · intro scope conversation known
        split <;> exact known}

theorem kept_step {event : Event} (kept : Kept s) (works : timely s event = true) :
    Kept (step s event) := by
  cases event with
  | sendQuery query faults => exact kept_sendQuery kept works
  | answer index outcome faults =>
    simp only [step]
    split
    · rename_i request here
      simp only [timely,here,Bool.and_eq_true,decide_eq_true_eq,
        Option.isNone_iff_eq_none] at works
      have asked := kept.stored request (List.mem_of_getElem? here)
      exact kept_answered (kept_resumed kept index) asked works.1 works.2
    · exact kept
  | refused index description =>
    simp only [step]
    split
    · exact kept_sendFailed (kept_resumed kept index) description
    · exact kept
  | changeScope newScope faults => exact kept_changeScope kept works

theorem kept_run {events : List Event} (kept : Kept s) (works : allTimely s events = true) :
    Kept (events.foldl step s) := by
  induction events generalizing s with
  | nil => exact kept
  | cons event events ih =>
    simp only [allTimely,Bool.and_eq_true] at works
    exact ih (kept_step kept works.1) works.2

end steps

/-- In a run in which the storage never fails and an answer never comes under another scope than
that of its question, every state reached is in place. -/
theorem inPlace_of_timely {stored : AIPopoverViewModel} (filed : Filed stored)
    (closed : IsClosed stored) {opening : Faults}
    (opens : selects stored .currentContent opening = true) {events : List Event}
    (inTime : allTimely (stored.loadConversation opening) events = true) :
    InPlace (asked stored opening events) :=
  (kept_run (kept_loadConversation filed closed opens) inTime).toInPlace

theorem filed_empty : Filed {} := by
  constructor <;> simp

def plainAnswer : AIOutcome := {response := {text := "a".toList,provider := .cloud}}

/-- The answer comes after the user has gone to another scope and back. -/
theorem inPlace_thereAndBack :
    InPlace (asked {} {} [.sendQuery "q".toList {},.changeScope .web {},
      .changeScope .currentContent {},.answer 0 plainAnswer {}]) :=
  inPlace_of_timely filed_empty ⟨rfl,rfl,rfl⟩ (by decide +kernel) (by decide +kernel)

def answeredElsewhere : AIPopoverViewModel :=
  asked {} {} [.sendQuery "q".toList {},.changeScope .web {},.answer 0 plainAnswer {}]

/-- It is stored in the conversation of the other scope, away from its question. -/
theorem answeredElsewhere_misfiled : ¬ InPlace answeredElsewhere := by
  intro placed
  have parted : ¬ ∀ a ∈ answeredElsewhere.records, ∀ b ∈ answeredElsewhere.records,
      a.question = b.question → a.conversationID = b.conversationID := by decide +kernel
  exact parted placed.filed.together

end LocalBook.ReadFlow.Popover
