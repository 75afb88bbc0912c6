import BeastLounge.Theory.Runs
import BeastLounge.Theory.Program
import BeastLounge.Theory.Containers
import BeastLounge.Theory.Shuffle
import BeastLounge.Theory.Totals
import BeastLounge.Theory.Paths
import BeastLounge.Theory.Holders
import BeastLounge.Theory.Ledger
import BeastLounge.Expected.Members
import BeastLounge.Expected.Lifetime
import BeastLounge.Expected.Assign
import BeastLounge.Expected.Values
import BeastLounge.Session.WriteQueue
import BeastLounge.Session.Fifo
import BeastLounge.Session.Outstanding
import BeastLounge.Session.Drain
import BeastLounge.Session.Message
import BeastLounge.Session.SharedBuffer
import BeastLounge.Json.Value
import BeastLounge.Json.Text
import BeastLounge.Http.Request
import BeastLounge.Http.Session
import BeastLounge.Http.DocRoot
import BeastLounge.Server.Shutdown
import BeastLounge.Server.Stop
import BeastLounge.Server.Countdown
import BeastLounge.Listener.Sessions
import BeastLounge.Listener.Stop
import BeastLounge.Listener.Accept
import BeastLounge.Blackjack.Shoe
import BeastLounge.Blackjack.Game
import BeastLounge.Blackjack.Bounds
import BeastLounge.Blackjack.Seating
import BeastLounge.Blackjack.Dealing
import BeastLounge.Blackjack.Play
import BeastLounge.Blackjack.Stakes
import BeastLounge.Blackjack.Fresh
import BeastLounge.Blackjack.Cards
import BeastLounge.Blackjack.Decks
import BeastLounge.Blackjack.Rules
import BeastLounge.Blackjack.Evaluate
import BeastLounge.Blackjack.Flags
import BeastLounge.Blackjack.PlayOut
import BeastLounge.Blackjack.Layout
import BeastLounge.Rpc.Call
import BeastLounge.Rpc.Grammar
import BeastLounge.Lounge.Ops
import BeastLounge.Lounge.Registry
import BeastLounge.Lounge.Channel
import BeastLounge.Lounge.Dispatch
import BeastLounge.Lounge.Table
import BeastLounge.Lounge.World
import BeastLounge.Lounge.Rules
import BeastLounge.Lounge.Notices
import BeastLounge.Lounge.Presence
import BeastLounge.Lounge.Membership
import BeastLounge.Lounge.Disconnect
import BeastLounge.Lounge.Exceptions
import BeastLounge.Lounge.FailedRequests
import BeastLounge.Lounge.Identity
import BeastLounge.Lounge.Standing
import BeastLounge.Lounge.Rooms
import BeastLounge.Lounge.Replies
import BeastLounge.Lounge.Seats
import BeastLounge.Lounge.SeatHolders
import BeastLounge.Lounge.Orphans
import BeastLounge.Lounge.Snapshot
import BeastLounge.Lounge.Deals
import BeastLounge.Lounge.Sizes
import BeastLounge.Lounge.Messages
import BeastLounge.Lounge.Updates
import BeastLounge.Lounge.Views
import BeastLounge.Lounge.Serial
import BeastLounge.Lounge.Answers
import BeastLounge.Lounge.Alone
import BeastLounge.Client.Page
import BeastLounge.Client.Drawing
import BeastLounge.Client.Screens
import BeastLounge.Client.Chat
import BeastLounge.Lounge.Rest
import BeastLounge.Client.Delivery
import BeastLounge.Client.Settled
import BeastLounge.Blackjack.Rotation
